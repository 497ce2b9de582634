import ReactiveMarkup.Proofs.Writing

/-! What steps keep however they end. Panics and exhausted calls undo nothing, but batches are left,
observers are put back, and effects have their bodies again: no effect is lost by a panic, unless it
waited when the panic left the outermost batch. -/

namespace ReactiveMarkup

namespace Step

variable {σ α β : Type}

/-- What holds after a step, however it ends. -/
def Leaves (step : Step σ α) (before : σ) (post : σ → Prop) : Prop := post (step.run before).2

theorem Leaves.of_run {step : Step σ α} {before after : σ} {ending : Ending α} {post : σ → Prop}
    (leaves : Leaves step before post) (ran : step.run before = (ending, after)) : post after := by
  rw [Leaves, ran] at leaves
  exact leaves

theorem Leaves.mono {step : Step σ α} {before : σ} {post weaker : σ → Prop} (leaves : Leaves step before post)
    (implies : ∀ after, post after → weaker after) : Leaves step before weaker :=
  implies _ leaves

@[simp]
theorem leaves_pure (value : α) (before : σ) (post : σ → Prop) : Leaves (pure value) before post ↔ post before := Iff.rfl

@[simp]
theorem leaves_panic (cause : Panic) (before : σ) (post : σ → Prop) :
    Leaves (Step.panic cause : Step σ α) before post ↔ post before := Iff.rfl

@[simp]
theorem leaves_exhausted (before : σ) (post : σ → Prop) : Leaves (Step.exhausted : Step σ α) before post ↔ post before := Iff.rfl

@[simp]
theorem leaves_get_bind (next : σ → Step σ β) (before : σ) (post : σ → Prop) :
    Leaves (get >>= next) before post ↔ Leaves (next before) before post := Iff.rfl

@[simp]
theorem leaves_modifyGet_bind (f : σ → α × σ) (next : α → Step σ β) (before : σ) (post : σ → Prop) :
    Leaves (MonadState.modifyGet f >>= next) before post ↔ Leaves (next (f before).1) (f before).2 post := Iff.rfl

@[simp]
theorem leaves_modify_bind (f : σ → σ) (next : PUnit → Step σ β) (before : σ) (post : σ → Prop) :
    Leaves (modify f >>= next) before post ↔ Leaves (next ⟨⟩) (f before) post := Iff.rfl

@[simp]
theorem leaves_modify (f : σ → σ) (before : σ) (post : σ → Prop) :
    Leaves (modify f : Step σ PUnit) before post ↔ post (f before) := Iff.rfl

/-- One step after another. What holds after the first one is enough if it breaks off. -/
theorem Leaves.bind {step : Step σ α} {next : α → Step σ β} {before : σ} {mid post : σ → Prop} (first : Leaves step before mid)
    (broken : ∀ between, mid between → post between)
    (rest : ∀ value between, step.run before = (.done value, between) → mid between → Leaves (next value) between post) :
    Leaves (step >>= next) before post := by
  show post (Step.bind step next before).2
  rw [Step.bind]
  cases ran : step.run before with
  | mk ending between =>
    have middle := first.of_run ran
    rw [show step before = (ending, between) from ran]
    cases ending with
    | done value => exact rest value between ran middle
    | panicked cause => exact broken between middle
    | exhausted => exact broken between middle

theorem leaves_after (step : Step σ α) (cleanup : Ending α → σ → σ) (before : σ) (post : σ → Prop) :
    Leaves (step.after cleanup) before post ↔ post (cleanup (step.run before).1 (step.run before).2) := Iff.rfl

theorem leaves_map (step : Step σ α) (f : α → β) (before : σ) (post : σ → Prop) :
    Leaves (f <$> step) before post ↔ Leaves step before post := by
  rw [map_eq_pure_bind]
  show post (Step.bind step _ before).2 ↔ post (step before).2
  rw [Step.bind]
  rcases step before with ⟨_ | _ | _, _⟩ <;> rfl

end Step

namespace Machine

open Step

variable {host : Host} {α : Type}

@[simp]
theorem leaves_graph?_bind {β : Type} (next : Graph host.Code (Task host.Code) → Run host β) (machine : Machine host)
    (post : Machine host → Prop) : Leaves (graph? >>= next) machine post ↔ Leaves (next machine.graph) machine post := Iff.rfl

@[simp]
theorem leaves_modifyGraph_bind {β : Type} (f : Graph host.Code (Task host.Code) → Graph host.Code (Task host.Code))
    (next : Unit → Run host β) (machine : Machine host) (post : Machine host → Prop) :
    Leaves (modifyGraph f >>= next) machine post ↔ Leaves (next ()) { machine with graph := f machine.graph } post := Iff.rfl

@[simp]
theorem leaves_modifyGraph (f : Graph host.Code (Task host.Code) → Graph host.Code (Task host.Code)) (machine : Machine host)
    (post : Machine host → Prop) : Leaves (modifyGraph f) machine post ↔ post { machine with graph := f machine.graph } := Iff.rfl

theorem leaves_observedBy (observer : Option Nat) (step : Run host α) (machine : Machine host) (post : Machine host → Prop) :
    Leaves (observedBy observer step) machine post ↔
      Leaves step { machine with graph := { machine.graph with observer } } fun after =>
        post { after with graph := { after.graph with observer := machine.graph.observer } } := Iff.rfl

theorem leaves_holding (parts : List Part) (step : Run host α) (machine : Machine host) (post : Machine host → Prop) :
    Leaves (holding parts step) machine post ↔
      Leaves step { machine with held := parts ++ machine.held } fun after => post { after with held := machine.held } := Iff.rfl

theorem leaves_withBatch (step : Run host α) (machine : Machine host) (post : Machine host → Prop) :
    Leaves (withBatch step) machine post ↔
      post { (step.run { machine with graph := machine.graph.enterBatch }).2 with
        graph := (step.run { machine with graph := machine.graph.enterBatch }).2.graph.leaveBatch
          (step.run { machine with graph := machine.graph.enterBatch }).1.isPanic } := Iff.rfl

end Machine

namespace Graph

variable {Code Body : Type} {hosted : Body → Prop} {before middle after graph : Graph Code Body}

/-- Readers and sources match, the observer is a member, and bodies of effects are of a certain kind. -/
structure Fit (hosted : Body → Prop) (graph : Graph Code Body) : Prop where
  symmetric : graph.Symmetric
  observing : ∀ observer, graph.observer = some observer → observer < graph.vertices.size
  bodies : ∀ id effect body, graph.content? id = some (.effect effect) → effect.body = some body → hosted body

/-- Effects keep their bodies unless they are disposed, for good; new ones come with a body. -/
structure Steady (before after : Graph Code Body) : Prop where
  size : before.vertices.size ≤ after.vertices.size
  depth : after.depth = before.depth
  observer : after.observer = before.observer
  effects : ∀ id effect, before.content? id = some (.effect effect) →
    ∃ later, after.content? id = some (.effect later) ∧ (later.disposed = false → effect.disposed = false ∧ later.body = effect.body)
  created : ∀ id effect, after.content? id = some (.effect effect) →
    (∃ earlier, before.content? id = some (.effect earlier)) ∨
      (before.vertices.size ≤ id ∧ (effect.disposed = false → effect.body.isSome))
  signals : ∀ id value, before.content? id = some (.signal value) → ∃ later, after.content? id = some (.signal later)

/-- What steps keep however they end. In a batch, effects that wait go on waiting until they are disposed. -/
structure Kept (hosted : Body → Prop) (before after : Graph Code Body) : Prop where
  fit : after.Fit hosted
  steady : before.Steady after
  waits : 0 < before.depth → ∀ id ∈ before.queue, before.IsLive id → after.IsLive id → id ∈ after.queue

namespace Steady

theorem refl (graph : Graph Code Body) : graph.Steady graph :=
  ⟨Nat.le_refl _, rfl, rfl, fun _ effect found => ⟨effect, found, fun awake => ⟨awake, rfl⟩⟩, fun _ effect found => .inl ⟨effect, found⟩,
    fun _ value found => ⟨value, found⟩⟩

/-- An effect that was live before and is so afterwards was live all along. -/
theorem isLive_between (first : before.Steady middle) (second : middle.Steady after) {id : Nat} (was : before.IsLive id)
    (live : after.IsLive id) : middle.IsLive id := by
  obtain ⟨effect, found, _⟩ := was
  obtain ⟨later, foundLater, awake⟩ := live
  obtain ⟨between, foundBetween, _⟩ := first.effects id effect found
  obtain ⟨again, foundAgain, kept⟩ := second.effects id between foundBetween
  cases foundLater.symm.trans foundAgain
  exact ⟨between, foundBetween, (kept awake).1⟩

theorem trans (first : before.Steady middle) (second : middle.Steady after) : before.Steady after := by
  refine ⟨Nat.le_trans first.size second.size, second.depth.trans first.depth, second.observer.trans first.observer, ?_, ?_, ?_⟩
  · intro id effect found
    obtain ⟨between, foundBetween, kept⟩ := first.effects id effect found
    obtain ⟨later, foundLater, keptToo⟩ := second.effects id between foundBetween
    refine ⟨later, foundLater, fun awake => ?_⟩
    obtain ⟨stillAwake, same⟩ := keptToo awake
    obtain ⟨wasAwake, sameBefore⟩ := kept stillAwake
    exact ⟨wasAwake, same.trans sameBefore⟩
  · intro id effect found
    obtain ⟨between, foundBetween⟩ | ⟨new, bodied⟩ := second.created id effect found
    · refine (first.created id between foundBetween).imp_right fun ⟨new, bodied⟩ => ⟨new, fun awake => ?_⟩
      obtain ⟨later, again, kept⟩ := second.effects id between foundBetween
      cases found.symm.trans again
      obtain ⟨stillAwake, same⟩ := kept awake
      rw [same]
      exact bodied stillAwake
    · exact .inr ⟨Nat.le_trans first.size new, bodied⟩
  · intro id value found
    obtain ⟨between, foundBetween⟩ := first.signals id value found
    exact second.signals id between foundBetween

/-- Live effects that had their bodies have them still, and new ones come with theirs. -/
theorem bodied (steady : before.Steady after)
    (was : ∀ id effect, before.content? id = some (.effect effect) → effect.disposed = false → effect.body.isSome) :
    ∀ id effect, after.content? id = some (.effect effect) → effect.disposed = false → effect.body.isSome := by
  intro id effect found awake
  obtain ⟨earlier, foundEarlier⟩ | ⟨_, bodied⟩ := steady.created id effect found
  · obtain ⟨later, foundLater, kept⟩ := steady.effects id earlier foundEarlier
    cases found.symm.trans foundLater
    rw [(kept awake).2]
    exact was id earlier foundEarlier (kept awake).1
  · exact bodied awake

/-- Nothing happens to effects where contents are the same but for cells. -/
theorem of_contents (size : before.vertices.size = after.vertices.size) (depth : after.depth = before.depth)
    (observer : after.observer = before.observer)
    (effects : ∀ id effect, after.content? id = some (.effect effect) ↔ before.content? id = some (.effect effect))
    (signals : ∀ id value, before.content? id = some (.signal value) → ∃ later, after.content? id = some (.signal later)) :
    before.Steady after :=
  ⟨Nat.le_of_eq size, depth, observer, fun id effect found => ⟨effect, (effects id effect).2 found, fun awake => ⟨awake, rfl⟩⟩,
    fun id effect found => .inl ⟨effect, (effects id effect).1 found⟩, signals⟩

end Steady

theorem Fit.observe (fit : graph.Fit hosted) {observer : Option Nat} (inside : ∀ id, observer = some id → id < graph.vertices.size) :
    Fit hosted { graph with observer } := ⟨fit.symmetric, inside, fit.bodies⟩

theorem exists_of_modifyEffect {id other : Nat} {f : Effect Code Body → Effect Code Body} {later : Effect Code Body}
    (found : (graph.modifyEffect id f).content? other = some (.effect later)) :
    ∃ effect, graph.content? other = some (.effect effect) ∧ (later = effect ∨ later = f effect) := by
  rw [content?_modifyEffect] at found
  split at found
  next same =>
    subst same
    split at found
    next effect was =>
      cases found
      exact ⟨effect, was, .inr rfl⟩
    next noEffect => exact absurd found (noEffect later)
  next => exact ⟨later, found, .inl rfl⟩

theorem Fit.modifyEffect (fit : graph.Fit hosted) (id : Nat) (f : Effect Code Body → Effect Code Body)
    (bodies : ∀ effect body, (f effect).body = some body → effect.body = some body) : (graph.modifyEffect id f).Fit hosted := by
  refine ⟨symmetric_of_same fit.symmetric (by simp) (by simp), fun observer observed => ?_, fun other later body found isBody => ?_⟩
  · simpa using fit.observing observer observed
  · obtain ⟨effect, was, rfl | rfl⟩ := exists_of_modifyEffect found
    · exact fit.bodies other later body was isBody
    · exact fit.bodies other effect body was (bodies effect body isBody)

namespace Kept

theorem refl (fit : graph.Fit hosted) : graph.Kept hosted graph := ⟨fit, .refl graph, fun _ _ member _ _ => member⟩

theorem trans (first : before.Kept hosted middle) (second : middle.Kept hosted after) : before.Kept hosted after := by
  refine ⟨second.fit, first.steady.trans second.steady, fun inBatch id member was live => ?_⟩
  have between := first.steady.isLive_between second.steady was live
  exact second.waits (first.steady.depth ▸ inBatch) id (first.waits inBatch id member was between) between live

/-- Changes of cells, which leave effects and what waits alone. -/
theorem of_contents (fit : before.Fit hosted) (symmetric : after.Symmetric) (size : before.vertices.size = after.vertices.size)
    (depth : after.depth = before.depth) (observer : after.observer = before.observer) (queue : before.queue ⊆ after.queue)
    (effects : ∀ id effect, after.content? id = some (.effect effect) ↔ before.content? id = some (.effect effect))
    (signals : ∀ id value, before.content? id = some (.signal value) → ∃ later, after.content? id = some (.signal later)) :
    before.Kept hosted after := by
  refine ⟨⟨symmetric, fun id observed => ?_, fun id effect body found => fit.bodies id effect body ((effects id effect).1 found)⟩,
    .of_contents size depth observer effects signals, fun _ _ member _ _ => queue member⟩
  exact size ▸ fit.observing id (observer ▸ observed)

theorem track (fit : graph.Fit hosted) {source : Nat} (inside : source < graph.vertices.size) : graph.Kept hosted (graph.track source) :=
  .of_contents fit (symmetric_track fit.symmetric inside fit.observing) (size_track ..).symm (depth_track ..) (observer_track ..)
    (by rw [queue_track]; exact fun _ member => member) (fun id effect => by rw [content?_track]) fun id value found => ⟨value, by rw [content?_track, found]⟩

theorem modifyComputed (fit : graph.Fit hosted) (id : Nat) (f : Computed Code → Computed Code) :
    graph.Kept hosted (graph.modifyComputed id f) := by
  refine .of_contents fit (symmetric_of_same fit.symmetric (by simp) (by simp)) (by simp) rfl rfl (fun _ member => member) ?_ ?_
  · intro other effect
    rw [content?_modifyComputed]
    split
    next same =>
      subst same
      cases graph.content? other with
      | none => rfl
      | some content => cases content <;> simp
    next => rfl
  · intro other value found
    refine ⟨value, ?_⟩
    rw [content?_modifyComputed]
    split
    next same =>
      subst same
      rw [found]
    next => exact found

theorem write (fit : graph.Fit hosted) {cell : Nat} {held : Value} (signal : graph.content? cell = some (.signal held)) (value : Value) :
    graph.Kept hosted (graph.write cell value) := by
  have notified := notified_write fit.symmetric cell value
  have size : (graph.write cell value).vertices.size = _ := notified.size
  rw [size_setSignal] at size
  refine .of_contents fit notified.symmetric size.symm notified.depth notified.observer notified.queue
    (fun id effect => effect_write fit.symmetric signal value) fun id old found => ?_
  by_cases here : id = cell
  · subst here
    exact ⟨value, content?_write_self fit.symmetric (graph.lt_size_of_content? signal)⟩
  · have kept : (graph.write cell value).content? id = graph.content? id ∨ Expired graph (graph.write cell value) id :=
      content?_write_of_ne fit.symmetric here
    obtain same | ⟨_, computed, _, _⟩ := kept
    · exact ⟨old, same.trans found⟩
    · cases found.symm.trans computed

theorem release (fit : graph.Fit hosted) (id : Nat) : graph.Kept hosted (graph.release id) :=
  .of_contents fit (symmetric_release fit.symmetric id) (by simp) (by simp) (by simp) (by rw [queue_release]; exact fun _ member => member)
    (fun other effect => by rw [content?_release]) fun other value found => ⟨value, by rw [content?_release, found]⟩

/-- A change of one effect that leaves it its body, or ends it. -/
theorem modifyEffect (fit : graph.Fit hosted) (id : Nat) (f : Effect Code Body → Effect Code Body)
    (kept : ∀ effect, graph.content? id = some (.effect effect) →
      (f effect).disposed = false → effect.disposed = false ∧ (f effect).body = effect.body)
    (bodies : ∀ effect body, (f effect).body = some body → effect.body = some body) : graph.Kept hosted (graph.modifyEffect id f) := by
  refine ⟨fit.modifyEffect id f bodies, ⟨?_, rfl, rfl, ?_, ?_, ?_⟩, fun _ _ member _ _ => member⟩
  · simp
  · intro other effect found
    by_cases here : other = id
    · subst here
      exact ⟨f effect, content?_modifyEffect_self _ f found, kept effect found⟩
    · exact ⟨effect, (content?_modifyEffect_of_ne _ f here).trans found, fun awake => ⟨awake, rfl⟩⟩
  · intro other later found
    obtain ⟨effect, was, _⟩ := exists_of_modifyEffect found
    exact .inl ⟨effect, was⟩
  · intro other value found
    by_cases here : other = id
    · subst here
      exact ⟨value, by rw [content?_modifyEffect, if_pos rfl, found]⟩
    · exact ⟨value, (content?_modifyEffect_of_ne _ f here).trans found⟩

theorem add (fit : graph.Fit hosted) (content : Content Code Body)
    (bodied : ∀ effect, content = .effect effect → ∃ body, effect.body = some body ∧ hosted body) : graph.Kept hosted (graph.add content).2 := by
  refine ⟨⟨symmetric_of_same fit.symmetric (by simp) (by simp), fun observer observed => ?_, fun id effect body found isBody => ?_⟩,
    ⟨by simp, rfl, rfl, fun id effect found => ?_, fun id effect found => ?_, fun id value found => ?_⟩, fun _ _ member _ _ => member⟩
  · have := fit.observing observer observed
    simp only [size_add]
    omega
  · rw [content?_add] at found
    split at found
    · obtain ⟨other, same, isHosted⟩ := bodied effect (Option.some.inj found)
      cases isBody.symm.trans same
      exact isHosted
    · exact fit.bodies id effect body found isBody
  · have inside := graph.lt_size_of_content? found
    exact ⟨effect, by rw [content?_add, if_neg (by omega), found], fun awake => ⟨awake, rfl⟩⟩
  · rw [content?_add] at found
    split at found
    next here =>
      obtain ⟨body, isBody, _⟩ := bodied effect (Option.some.inj found)
      exact .inr ⟨by omega, fun _ => by rw [isBody]; rfl⟩
    next => exact .inl ⟨effect, found⟩
  · have inside := graph.lt_size_of_content? found
    exact ⟨value, by rw [content?_add, if_neg (by omega), found]⟩

/-- An effect that is dead need not wait. -/
theorem dequeue (fit : graph.Fit hosted) {id : Nat} (dead : ¬ graph.IsLive id) : graph.Kept hosted (graph.dequeue id) := by
  refine ⟨⟨fit.symmetric, fit.observing, fit.bodies⟩, ⟨Nat.le_refl _, rfl, rfl, fun _ effect found => ⟨effect, found, fun awake => ⟨awake, rfl⟩⟩,
    fun _ effect found => .inl ⟨effect, found⟩, fun _ value found => ⟨value, found⟩⟩, fun _ other member live _ => ?_⟩
  refine List.mem_filter.2 ⟨member, ?_⟩
  simpa using fun same : other = id => dead (same ▸ live)

/-- What is done for an observer, who is put back afterwards. -/
theorem observed (fit : graph.Fit hosted) {observer : Option Nat} 
    (kept : Kept hosted { graph with observer } after) : graph.Kept hosted { after with observer := graph.observer } := by
  obtain ⟨⟨symmetric, _, bodies⟩, ⟨size, depth, _, effects, created, signals⟩, waits⟩ := kept
  exact ⟨⟨symmetric, fun other isObserver => Nat.lt_of_lt_of_le (fit.observing other isObserver) size, bodies⟩,
    ⟨size, depth, rfl, effects, created, signals⟩, waits⟩

/-- What is done in a batch, however it is left. Only a panic that leaves the outermost batch makes effects wait no more. -/
theorem batched (kept : graph.enterBatch.Kept hosted after) (panicking : Bool) : graph.Kept hosted (after.leaveBatch panicking) := by
  obtain ⟨⟨symmetric, observing, bodies⟩, ⟨size, depth, observer, effects, created, signals⟩, waits⟩ := kept
  have outside : after.depth - 1 = graph.depth := by
    rw [depth]
    exact Nat.add_sub_cancel ..
  rw [leaveBatch]
  dsimp only
  split
  next outermost =>
    refine ⟨⟨symmetric, observing, bodies⟩, ⟨size, outside, observer, effects, created, signals⟩, fun inBatch => ?_⟩
    simp only [outside, Bool.and_eq_true, decide_eq_true_eq] at outermost
    omega
  next =>
    exact ⟨⟨symmetric, observing, bodies⟩, ⟨size, outside, observer, effects, created, signals⟩, fun _ => waits (Nat.succ_pos _)⟩

/-- The effects that wait run in a batch, which is the outermost one. -/
theorem flushed (closed : graph.depth = 0) (fit : after.Fit hosted) (steady : graph.enterBatch.Steady after) (panicking : Bool) :
    graph.Kept hosted (after.leaveBatch panicking) := by
  obtain ⟨symmetric, observing, bodies⟩ := fit
  obtain ⟨size, depth, observer, effects, created, signals⟩ := steady
  have outside : after.depth - 1 = graph.depth := by
    rw [depth]
    exact Nat.add_sub_cancel ..
  rw [leaveBatch]
  dsimp only
  split <;> exact ⟨⟨symmetric, observing, bodies⟩, ⟨size, outside, observer, effects, created, signals⟩, fun inBatch => by omega⟩

/-- The run of an effect takes its body out and puts it back. -/
theorem restored {id : Nat} {effect : Effect Code Body} {body : Body} (fit : graph.Fit hosted)
    (found : graph.content? id = some (.effect effect)) (isBody : effect.body = some body)
    (kept : (graph.modifyEffect id fun effect => { effect with body := none }).Kept hosted after) :
    graph.Kept hosted (after.modifyEffect id fun effect => { effect with body := some body }) := by
  have foundTaken : (graph.modifyEffect id fun effect => { effect with body := none }).content? id =
      some (.effect { effect with body := none }) := content?_modifyEffect_self _ _ found
  have live (other : Nat) : (graph.modifyEffect id fun effect => { effect with body := none }).IsLive other ↔ graph.IsLive other := by
    by_cases here : other = id
    · subst here
      simp [IsLive, foundTaken, found]
    · simp only [IsLive, content?_modifyEffect_of_ne _ _ here]
  obtain ⟨last, foundLast, keptLast⟩ := kept.steady.effects id _ foundTaken
  have foundFinal : (after.modifyEffect id fun effect => { effect with body := some body }).content? id =
      some (.effect { last with body := some body }) := content?_modifyEffect_self _ _ foundLast
  refine ⟨⟨symmetric_of_same kept.fit.symmetric (by simp) (by simp), ?_, ?_⟩, ⟨?_, kept.steady.depth, kept.steady.observer, ?_, ?_, ?_⟩, ?_⟩
  · intro observer observed
    simpa using kept.fit.observing observer observed
  · intro other later task foundLater isTask
    by_cases here : other = id
    · subst here
      cases foundFinal.symm.trans foundLater
      cases isTask
      exact fit.bodies other effect body found isBody
    · exact kept.fit.bodies other later task ((content?_modifyEffect_of_ne _ _ here).symm.trans foundLater) isTask
  · simpa using kept.steady.size
  · intro other earlier was
    by_cases here : other = id
    · subst here
      cases found.symm.trans was
      exact ⟨_, foundFinal, fun awake => ⟨(keptLast awake).1, isBody.symm⟩⟩
    · obtain ⟨later, foundLater, keptLater⟩ := kept.steady.effects other earlier ((content?_modifyEffect_of_ne _ _ here).trans was)
      exact ⟨later, (content?_modifyEffect_of_ne _ _ here).trans foundLater, keptLater⟩
  · intro other later foundLater
    by_cases here : other = id
    · exact .inl ⟨effect, here ▸ found⟩
    · have created := kept.steady.created other later ((content?_modifyEffect_of_ne _ _ here).symm.trans foundLater)
      simpa only [content?_modifyEffect_of_ne _ _ here, size_modifyEffect] using created
  · intro other value foundSignal
    have here : other ≠ id := by
      rintro rfl
      cases found.symm.trans foundSignal
    obtain ⟨later, foundLater⟩ := kept.steady.signals other value ((content?_modifyEffect_of_ne _ _ here).trans foundSignal)
    exact ⟨later, (content?_modifyEffect_of_ne _ _ here).trans foundLater⟩
  · intro inBatch other member was final
    refine kept.waits inBatch other member ((live other).2 was) ?_
    obtain ⟨later, foundLater, awake⟩ := final
    by_cases here : other = id
    · subst here
      cases foundFinal.symm.trans foundLater
      exact ⟨last, foundLast, awake⟩
    · exact ⟨later, (content?_modifyEffect_of_ne _ _ here).symm.trans foundLater, awake⟩

end Kept

end Graph

namespace Machine

open ReactiveMarkup.Step ReactiveMarkup.Graph

variable {host : Host} {α β : Type} {hosted : Task host.Code → Prop} {calm : Document (Listener host.Code) → host.World → Prop} {before middle after machine : Machine host}

/-- What holds whenever code has control, given what is known of bodies, the document and the world. -/
structure Orderly (hosted : Task host.Code → Prop) (calm : Document (Listener host.Code) → host.World → Prop) (machine : Machine host) : Prop where
  fit : machine.graph.Fit hosted
  calm : calm machine.document machine.world

/-- What an operation leaves behind, however it ends. -/
structure Ordered (hosted : Task host.Code → Prop) (calm : Document (Listener host.Code) → host.World → Prop) (before after : Machine host) : Prop where
  kept : before.graph.Kept hosted after.graph
  calm : calm after.document after.world

theorem Ordered.orderly (ordered : before.Ordered hosted calm after) : after.Orderly hosted calm := ⟨ordered.kept.fit, ordered.calm⟩

theorem Ordered.refl (orderly : machine.Orderly hosted calm) : machine.Ordered hosted calm machine := ⟨.refl orderly.fit, orderly.calm⟩

theorem Ordered.trans (first : before.Ordered hosted calm middle) (second : middle.Ordered hosted calm after) :
    before.Ordered hosted calm after := ⟨first.kept.trans second.kept, second.calm⟩

/-- A change of the graph is no matter for the world. -/
theorem Orderly.changed {graph : Graph host.Code (Task host.Code)} (orderly : machine.Orderly hosted calm)
    (kept : machine.graph.Kept hosted graph) : machine.Ordered hosted calm { machine with graph } := ⟨kept, orderly.calm⟩

theorem Orderly.observe (orderly : machine.Orderly hosted calm) (observer : Option Nat)
    (inside : ∀ id, observer = some id → id < machine.graph.vertices.size) :
    Orderly hosted calm { machine with graph := { machine.graph with observer } } := ⟨orderly.fit.observe inside, orderly.calm⟩

theorem Orderly.enterBatch (orderly : machine.Orderly hosted calm) :
    Orderly hosted calm { machine with graph := machine.graph.enterBatch } :=
  ⟨⟨orderly.fit.symmetric, orderly.fit.observing, orderly.fit.bodies⟩, orderly.calm⟩

/-- A step keeps the effects of a machine and leaves its document and its world calm, however it ends. -/
def Orders (hosted : Task host.Code → Prop) (calm : Document (Listener host.Code) → host.World → Prop) (step : Run host α) (machine : Machine host) : Prop :=
  Leaves step machine fun after => machine.Ordered hosted calm after

theorem Orders.bind {step : Run host α} {next : α → Run host β} (first : Orders hosted calm step machine)
    (rest : ∀ value between, machine.Ordered hosted calm between → Orders hosted calm (next value) between) :
    Orders hosted calm (step >>= next) machine :=
  Leaves.bind first (fun _ ordered => ordered) fun value between _ ordered =>
    (rest value between ordered).mono fun _ later => ordered.trans later

theorem Orders.modify {f : Graph host.Code (Task host.Code) → Graph host.Code (Task host.Code)} {next : Unit → Run host β}
    (ordered : machine.Ordered hosted calm { machine with graph := f machine.graph })
    (rest : Orders hosted calm (next ()) { machine with graph := f machine.graph }) : Orders hosted calm (modifyGraph f >>= next) machine :=
  rest.mono fun _ later => ordered.trans later

theorem orders_graph? {next : Graph host.Code (Task host.Code) → Run host β} :
    Orders hosted calm (graph? >>= next) machine ↔ Orders hosted calm (next machine.graph) machine := Iff.rfl

theorem Orders.pure (orderly : machine.Orderly hosted calm) (value : α) : Orders hosted calm (pure value) machine := Ordered.refl orderly

theorem Orders.discard {step : Run host α} (orders : Orders hosted calm step machine) : Orders hosted calm (discard step) machine :=
  orders.bind fun _ _ ordered => .pure ordered.orderly _

theorem Orders.observed {observer : Option Nat} {step : Run host α} (orderly : machine.Orderly hosted calm)
    (orders : Orders hosted calm step { machine with graph := { machine.graph with observer } }) :
    Orders hosted calm (observedBy observer step) machine :=
  (leaves_observedBy ..).2 (orders.mono fun _ ordered => ⟨ordered.kept.observed orderly.fit, ordered.calm⟩)

/-- Holding on to parts, and letting go of them, is no matter of order. -/
theorem Orders.holding {parts : List Part} {step : Run host α}
    (orders : Orders hosted calm step { machine with held := parts ++ machine.held }) : Orders hosted calm (holding parts step) machine :=
  (leaves_holding ..).2 (Leaves.mono orders fun _ ordered => ⟨ordered.kept, ordered.calm⟩)

theorem Orders.batched {step : Run host α} (orders : Orders hosted calm step { machine with graph := machine.graph.enterBatch }) :
    Orders hosted calm (withBatch step) machine :=
  (leaves_withBatch ..).2 ⟨orders.kept.batched _, orders.calm⟩

theorem Orders.cleaned {step : Run host α} (orders : Orders hosted calm step machine)
    (f : Graph host.Code (Task host.Code) → Graph host.Code (Task host.Code))
    (clean : ∀ {graph : Graph host.Code (Task host.Code)}, graph.Fit hosted → graph.Kept hosted (f graph)) :
    Orders hosted calm (step.after fun _ machine => { machine with graph := f machine.graph }) machine :=
  (leaves_after ..).2 ⟨orders.kept.trans (clean orders.kept.fit), orders.calm⟩

/-- Calls that leave order behind. -/
structure KeepsOrder (hosted : Task host.Code → Prop) (calm : Document (Listener host.Code) → host.World → Prop) (calls : Calls host) : Prop where
  call : ∀ code arguments (machine : Machine host), machine.Orderly hosted calm → Orders hosted calm (calls.call code arguments) machine
  react : ∀ code (machine : Machine host), machine.Orderly hosted calm → Orders hosted calm (calls.react code) machine
  perform : ∀ task, hosted task → ∀ machine : Machine host, machine.Orderly hosted calm → Orders hosted calm (calls.perform task) machine
  flush : ∀ machine : Machine host, machine.Orderly hosted calm → Orders hosted calm calls.flush machine

variable {calls : Calls host}

section

variable (keeps : KeepsOrder hosted calm calls) (orderly : machine.Orderly hosted calm)

include keeps orderly

theorem orders_readComputed {cell : Nat} (inside : cell < machine.graph.vertices.size) :
    Orders hosted calm (readComputed calls cell) machine := by
  have tracked := orderly.changed (.track orderly.fit inside)
  refine .modify tracked (orders_graph?.2 ?_)
  dsimp only
  split
  next => exact .pure tracked.orderly _
  next computed found =>
    split
    next => exact .pure tracked.orderly _
    split
    next => exact Ordered.refl tracked.orderly
    have busy := tracked.orderly.changed (.modifyComputed tracked.orderly.fit cell fun computed => { computed with computing := true })
    have observing := busy.orderly.observe (some cell) (by simpa using inside)
    have called := Orders.observed busy.orderly (keeps.call computed.code [] _ observing)
    have settled := called.cleaned (·.modifyComputed cell fun computed => { computed with computing := false }) fun fit => .modifyComputed fit _ _
    refine .modify busy (.bind settled fun value between ordered => ?_)
    have renewed := ordered.orderly.changed
      (.modifyComputed ordered.orderly.fit cell fun computed => { computed with value := some value, stale := false })
    exact .modify renewed (.pure renewed.orderly _)

theorem orders_readCell (cell : Nat) : Orders hosted calm (readCell calls cell) machine := by
  refine orders_graph?.2 ?_
  split
  next found =>
    have tracked := orderly.changed (.track orderly.fit (lt_size_of_content? _ found))
    exact .modify tracked (Ordered.refl tracked.orderly)
  next found => exact orders_readComputed keeps orderly (lt_size_of_content? _ found)
  next => exact Ordered.refl orderly

theorem orders_untracked_call (code : host.Code) : Orders hosted calm (discard (untrack (calls.call code []))) machine :=
  .discard (.observed orderly (keeps.call code [] _ (orderly.observe none nofun)))

theorem orders_runCleanup (id : Nat) : Orders hosted calm (runCleanup calls id) machine := by
  refine orders_graph?.2 ?_
  split
  next => exact .pure orderly _
  next code _ =>
    have taken := orderly.changed
      (.modifyEffect orderly.fit id (fun effect => { effect with cleanup := none }) (fun _ _ awake => ⟨awake, rfl⟩) fun _ _ same => same)
    exact .modify taken (orders_untracked_call keeps taken.orderly code)

theorem orders_settleCleanup (id : Nat) (cleanup : Option host.Code) : Orders hosted calm (settleCleanup calls id cleanup) machine := by
  refine orders_graph?.2 ?_
  split
  · cases cleanup with
    | none => exact .pure orderly _
    | some code => exact orders_untracked_call keeps orderly code
  · exact orderly.changed
      (.modifyEffect orderly.fit id (fun effect => { effect with cleanup }) (fun _ _ awake => ⟨awake, rfl⟩) fun _ _ same => same)

/-- The body of an effect runs, and is back afterwards. -/
theorem orders_body {id : Nat} {effect : Effect host.Code (Task host.Code)} {body : Task host.Code}
    (found : machine.graph.content? id = some (.effect effect)) (isBody : effect.body = some body) :
    Orders hosted calm (modifyGraph (·.modifyEffect id fun effect => { effect with body := none }) >>= fun _ =>
      (observedBy (some id) (holding body.parts (calls.perform body))).after fun _ machine =>
        { machine with graph := machine.graph.modifyEffect id fun effect => { effect with body := some body } }) machine := by
  have taken : Orderly hosted calm { machine with graph := machine.graph.modifyEffect id fun effect => { effect with body := none } } :=
    ⟨orderly.fit.modifyEffect id _ nofun, orderly.calm⟩
  have observing := taken.observe (some id) (by
    rintro _ ⟨⟩
    simpa using machine.graph.lt_size_of_content? found)
  have performed : Orders hosted calm (observedBy (some id) (holding body.parts (calls.perform body)))
      { machine with graph := machine.graph.modifyEffect id fun effect => { effect with body := none } } :=
    .observed taken (.holding (keeps.perform body (orderly.fit.bodies id effect body found isBody) _ ⟨observing.fit, observing.calm⟩))
  exact ⟨.restored orderly.fit found isBody performed.kept, performed.calm⟩

theorem orders_runEffect (id : Nat) : Orders hosted calm (runEffect calls id) machine := by
  refine orders_graph?.2 ?_
  split
  next => exact .pure orderly _
  next effect found =>
    split
    next => exact .pure orderly _
    next awake =>
      have released := orderly.changed (.release orderly.fit id)
      refine .modify released (.bind (orders_runCleanup keeps released.orderly id) fun _ between ordered => orders_graph?.2 ?_)
      split
      next => exact .pure ordered.orderly _
      next body isBody =>
        obtain ⟨later, foundLater, stored⟩ := Option.bind_eq_some_iff.1 isBody
        rw [← LawfulMonad.bind_assoc]
        exact .bind (orders_body keeps ordered.orderly (between.graph.effect?_eq_some.1 foundLater) stored) fun cleanup _ ordered =>
          orders_settleCleanup keeps ordered.orderly id cleanup

/-- What running waiting effects keeps. Those that were taken wait no more. -/
theorem leaves_drain (bound : Nat) : Leaves (drain calls bound) machine fun after =>
    after.Orderly hosted calm ∧ machine.graph.Steady after.graph := by
  induction bound generalizing machine with
  | zero => exact ⟨orderly, .refl _⟩
  | succ bound ih =>
    rw [drain, leaves_graph?_bind]
    cases waiting : machine.graph.queue with
    | nil =>
      rw [pop?, waiting]
      exact ⟨orderly, .refl _⟩
    | cons id rest =>
      rw [pop?, waiting]
      dsimp only
      rw [leaves_modifyGraph_bind]
      have popped : Orderly hosted calm { machine with graph := { machine.graph with queue := rest } } :=
        ⟨⟨orderly.fit.symmetric, orderly.fit.observing, orderly.fit.bodies⟩, orderly.calm⟩
      have first : Leaves (runEffect calls id) { machine with graph := { machine.graph with queue := rest } } fun after =>
          after.Orderly hosted calm ∧ machine.graph.Steady after.graph := by
        refine (orders_runEffect keeps popped id).mono fun after ordered => ⟨ordered.orderly, ?_⟩
        obtain ⟨size, depth, observer, effects, created, signals⟩ := ordered.kept.steady
        exact ⟨size, depth, observer, effects, created, signals⟩
      refine first.bind (fun _ both => both) ?_
      rintro _ between - ⟨orderlyBetween, steady⟩
      exact (ih orderlyBetween).mono fun after ⟨orderlyAfter, steadyAfter⟩ => ⟨orderlyAfter, steady.trans steadyAfter⟩

theorem orders_flush (bound : Nat) : Orders hosted calm (flush calls bound) machine := by
  refine orders_graph?.2 ?_
  split
  next => exact .pure orderly _
  next closed =>
    have drained := leaves_drain keeps orderly.enterBatch bound
    exact (leaves_withBatch ..).2 ⟨.flushed (by omega) drained.1.fit drained.2 _, drained.1.calm⟩

omit orderly in
theorem orders_batch {step : Run host α}
    (orders : Orders hosted calm step { machine with graph := machine.graph.enterBatch }) : Orders hosted calm (batch calls step) machine :=
  .bind (.batched orders) fun _ between ordered =>
    .bind (keeps.flush between ordered.orderly) fun _ _ ordered => .pure ordered.orderly _

theorem orders_newEffect {body : Task host.Code} (isHosted : hosted body) : Orders hosted calm (newEffect calls body) machine := by
  have added : machine.graph.Kept hosted (machine.graph.add (.effect ⟨some body, none, false⟩)).2 := by
    refine Kept.add orderly.fit _ fun effect same => ?_
    cases same
    exact ⟨body, rfl, isHosted⟩
  refine .bind (orderly.changed added : Orders hosted calm (addToGraph (.effect ⟨some body, none, false⟩)) machine) fun id between ordered => ?_
  exact .bind (orders_batch keeps (orders_runEffect keeps ordered.orderly.enterBatch id)) fun _ _ ordered => .pure ordered.orderly _

theorem orders_dispose (id : Nat) : Orders hosted calm (dispose calls id) machine := by
  refine orders_graph?.2 ?_
  split
  next => exact .pure orderly _
  next effect found =>
    split
    next => exact .pure orderly _
    next =>
      replace found := machine.graph.effect?_eq_some.1 found
      have marked := Kept.modifyEffect orderly.fit id (fun effect => { effect with disposed := true }) nofun fun _ _ same => same
      have foundMarked : (machine.graph.modifyEffect id fun effect => { effect with disposed := true }).content? id =
          some (.effect { effect with disposed := true }) := content?_modifyEffect_self _ _ found
      have dead : ¬ (machine.graph.modifyEffect id fun effect => { effect with disposed := true }).IsLive id := by
        rintro ⟨other, foundOther, awake⟩
        cases foundMarked.symm.trans foundOther
        cases awake
      have released := orderly.changed ((marked.trans (.dequeue marked.fit dead)).trans (.release (Kept.dequeue marked.fit dead).fit id))
      refine .modify released (.bind (orders_runCleanup keeps released.orderly id) fun _ between ordered => ?_)
      refine ordered.orderly.changed
        (Kept.modifyEffect ordered.orderly.fit id (fun effect => { effect with body := none }) (fun later foundLater awake => ?_) nofun)
      obtain ⟨last, foundLast, keptLast⟩ := ordered.kept.steady.effects id { effect with disposed := true }
        (by rw [content?_release]; exact foundMarked)
      cases foundLater.symm.trans foundLast
      cases (keptLast awake).1

theorem orders_updateSignal {cell : Nat} {held : Value} (signal : machine.graph.content? cell = some (.signal held)) (value : Value) :
    Orders hosted calm (updateSignal calls cell value) machine := by
  have written : machine.Ordered hosted calm { machine with graph := machine.graph.write cell value } :=
    orderly.changed (.write orderly.fit signal value)
  exact (keeps.flush _ written.orderly).mono fun _ flushed => written.trans flushed

theorem orders_writeSignal {cell : Nat} {held : Value} (signal : machine.graph.content? cell = some (.signal held)) (value : Value) :
    Orders hosted calm (writeSignal calls cell value) machine := by
  show Orders hosted calm (if ((machine.graph.value? cell).getD .undefined).same value then pure () else updateSignal calls cell value) machine
  split
  next => exact .pure orderly _
  next => exact orders_updateSignal keeps orderly signal value

end

/-! Steps of which nothing but the effects is of interest. -/

/-- A step keeps the effects of a machine, however it ends. -/
def KeptBy (hosted : Task host.Code → Prop) (step : Run host α) (machine : Machine host) : Prop :=
  Leaves step machine fun after => machine.graph.Kept hosted after.graph

theorem keptBy_iff_orders {step : Run host α} : KeptBy hosted step machine ↔ Orders hosted (fun _ _ => True) step machine :=
  ⟨fun kept => ⟨kept, trivial⟩, fun orders => orders.kept⟩

theorem KeptBy.of_run {step : Run host α} {ending : Ending α} {after : Machine host} (kept : KeptBy hosted step machine)
    (ran : step.run machine = (ending, after)) : machine.graph.Kept hosted after.graph := by
  rw [KeptBy, Leaves, ran] at kept
  exact kept

theorem KeptBy.bind {step : Run host α} {next : α → Run host β} (first : KeptBy hosted step machine)
    (rest : ∀ value between, machine.graph.Kept hosted between.graph → KeptBy hosted (next value) between) :
    KeptBy hosted (step >>= next) machine :=
  Leaves.bind first (fun _ kept => kept) fun value between _ kept =>
    (rest value between kept).mono fun _ later => kept.trans later

theorem keptBy_graph? {next : Graph host.Code (Task host.Code) → Run host β} :
    KeptBy hosted (graph? >>= next) machine ↔ KeptBy hosted (next machine.graph) machine := Iff.rfl

theorem KeptBy.pure (fit : machine.graph.Fit hosted) (value : α) : KeptBy hosted (pure value) machine := Kept.refl fit

theorem KeptBy.discard {step : Run host α} (kept : KeptBy hosted step machine) : KeptBy hosted (discard step) machine :=
  kept.bind fun _ _ later => .pure later.fit _

theorem KeptBy.observed {observer : Option Nat} {step : Run host α} (fit : machine.graph.Fit hosted)
    (kept : KeptBy hosted step { machine with graph := { machine.graph with observer } }) :
    KeptBy hosted (observedBy observer step) machine :=
  (leaves_observedBy ..).2 (kept.mono fun _ kept => kept.observed fit)

/-- Calls that keep effects. -/
structure KeepsEffects (hosted : Task host.Code → Prop) (calls : Calls host) : Prop where
  call : ∀ code arguments (machine : Machine host), machine.graph.Fit hosted → KeptBy hosted (calls.call code arguments) machine
  react : ∀ code (machine : Machine host), machine.graph.Fit hosted → KeptBy hosted (calls.react code) machine
  perform : ∀ task, hosted task → ∀ machine : Machine host, machine.graph.Fit hosted → KeptBy hosted (calls.perform task) machine
  flush : ∀ machine : Machine host, machine.graph.Fit hosted → KeptBy hosted calls.flush machine

theorem KeepsEffects.keepsOrder (keeps : KeepsEffects hosted calls) : KeepsOrder hosted (fun _ _ => True) calls :=
  ⟨fun code arguments machine orderly => keptBy_iff_orders.1 (keeps.call code arguments machine orderly.fit),
    fun code machine orderly => keptBy_iff_orders.1 (keeps.react code machine orderly.fit),
    fun task isHosted machine orderly => keptBy_iff_orders.1 (keeps.perform task isHosted machine orderly.fit),
    fun machine orderly => keptBy_iff_orders.1 (keeps.flush machine orderly.fit)⟩

section

variable (keeps : KeepsEffects hosted calls) (fit : machine.graph.Fit hosted)

include keeps fit

theorem keptBy_readCell (cell : Nat) : KeptBy hosted (readCell calls cell) machine :=
  keptBy_iff_orders.2 (orders_readCell keeps.keepsOrder ⟨fit, trivial⟩ cell)

theorem keptBy_runEffect (id : Nat) : KeptBy hosted (runEffect calls id) machine :=
  keptBy_iff_orders.2 (orders_runEffect keeps.keepsOrder ⟨fit, trivial⟩ id)

theorem keptBy_flush (bound : Nat) : KeptBy hosted (flush calls bound) machine :=
  keptBy_iff_orders.2 (orders_flush keeps.keepsOrder ⟨fit, trivial⟩ bound)

omit fit in
theorem keptBy_batch {step : Run host α}
    (kept : KeptBy hosted step { machine with graph := machine.graph.enterBatch }) : KeptBy hosted (batch calls step) machine :=
  keptBy_iff_orders.2 (orders_batch keeps.keepsOrder (keptBy_iff_orders.1 kept))

theorem keptBy_newEffect {body : Task host.Code} (isHosted : hosted body) : KeptBy hosted (newEffect calls body) machine :=
  keptBy_iff_orders.2 (orders_newEffect keeps.keepsOrder ⟨fit, trivial⟩ isHosted)

theorem keptBy_dispose (id : Nat) : KeptBy hosted (dispose calls id) machine :=
  keptBy_iff_orders.2 (orders_dispose keeps.keepsOrder ⟨fit, trivial⟩ id)

end

end Machine

end ReactiveMarkup
