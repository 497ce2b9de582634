import ReactiveMarkup.Proofs.Script
import ReactiveMarkup.Proofs.Writing

/-! What the single steps of a script's operations preserve. -/

namespace ReactiveMarkup.Script

open ReactiveMarkup.Graph ReactiveMarkup.Step

variable {Memory : Type} {except : Nat → Prop} {before after machine : Machine (Host.scripted Memory)}

@[simp]
theorem ensures_graph? {breaks : Breaks} (machine : Machine (Host.scripted Memory))
    (post : Graph (ScriptCode Memory) (Task (ScriptCode Memory)) → Machine (Host.scripted Memory) → Prop) :
    @Ensures _ (Graph (ScriptCode Memory) (Task (ScriptCode Memory))) breaks Machine.graph? machine post ↔
      post machine.graph machine := Iff.rfl

/-- An effect is watched as long as its sources stay as they are. -/
theorem Watched.of_kept {id : Nat} (watched : Watched before id)
    (queue : id ∈ before.graph.queue → id ∈ after.graph.queue)
    (notes : after.world.notes id = before.world.notes id)
    (sources : after.graph.sources id = before.graph.sources id)
    (current : ∀ cell ∈ before.graph.sources id, ∀ value, before.graph.current? cell = some value →
      after.graph.current? cell = some value)
    (changes : ∀ cell ∈ before.graph.sources id, after.world.changes cell = before.world.changes cell) :
    Watched after id := by
  refine watched.imp queue fun ⟨noted, covered⟩ => ⟨fun note member => ?_, fun source member => ?_⟩
  · rw [notes] at member
    obtain ⟨inside, holds, same⟩ := noted note member
    rw [sources]
    exact ⟨inside, current _ inside _ holds, (changes _ inside).trans same⟩
  · rw [sources] at member
    rw [notes]
    exact covered source member

/-- A step that leaves cells and what is read alone. -/
theorem Sound.of_sameCells (sound : Sound before) (same : SameCells before.graph after.graph)
    (subscribers : ∀ id, after.graph.subscribers id = before.graph.subscribers id)
    (sources : ∀ id, after.graph.sources id = before.graph.sources id)
    (observing : ∀ observer, after.graph.observer = some observer →
      ∃ effect, before.graph.content? observer = some (.effect effect))
    (scripted : ∀ id effect, after.graph.content? id = some (.effect effect) →
      (∀ body, effect.body = some body → ∃ script, body = .host (.script script)) ∧
        ∀ code, effect.cleanup = some code → ∃ script, code = .script script)
    (bodied : after.graph.depth = 0 → ∀ id effect, after.graph.content? id = some (.effect effect) →
      effect.disposed = false → effect.body.isSome) : Sound after := by
  refine ⟨?_, ?_, ?_, scripted, bodied⟩
  · refine sound.coherent.of_sameCells same (symmetric_of_same sound.coherent.symmetric subscribers sources) ?_
    intro id _
    rw [sources]
    exact fun _ member => member
  · intro id computed found
    exact sound.waiting id computed ((same.content?_iff (by simp)).1 found)
  · intro observer observed
    obtain ⟨effect, found⟩ := observing observer observed
    rcases same observer with kept | ⟨_, later, _, new⟩
    · exact ⟨effect, kept.trans found⟩
    · exact ⟨later, new⟩

/-! Observers, batches and the queue. -/

theorem Sound.observe (sound : Sound machine) (observer : Option Nat)
    (valid : ∀ id, observer = some id → ∃ effect, machine.graph.content? id = some (.effect effect)) :
    Sound { machine with graph := { machine.graph with observer } } :=
  sound.of_sameCells (fun _ => .inl rfl) (fun _ => rfl) (fun _ => rfl) valid sound.scripted sound.bodied

theorem Sound.hold (sound : Sound machine) (held : List Part) : Sound { machine with held } :=
  ⟨sound.coherent, sound.waiting, sound.observing, sound.scripted, sound.bodied⟩

theorem Sound.enterBatch (sound : Sound machine) : Sound { machine with graph := machine.graph.enterBatch } :=
  sound.of_sameCells (fun _ => .inl rfl) (fun _ => rfl) (fun _ => rfl) sound.observing sound.scripted
    fun zero => absurd zero (Nat.succ_ne_zero _)

/-- Every live effect has its body. -/
def Bodied (machine : Machine (Host.scripted Memory)) : Prop :=
  ∀ id effect, machine.graph.content? id = some (.effect effect) → effect.disposed = false → effect.body.isSome

theorem Advanced.bodied (advanced : Advanced (fun _ => False) before after) (bodied : Bodied before) :
    Bodied after := by
  intro id effect found awake
  rcases advanced.created id effect found with ⟨earlier, was⟩ | ⟨_, new⟩
  · obtain ⟨later, again, kept⟩ := advanced.effects id earlier was
    rw [found] at again
    cases again
    obtain ⟨wasAwake, same⟩ := kept awake
    rw [same not_false]
    exact bodied id earlier was wasAwake
  · exact new not_false awake

theorem Advanced.effect (advanced : Advanced except before after) {id : Nat}
    (found : ∃ effect, before.graph.content? id = some (.effect effect)) :
    ∃ effect, after.graph.content? id = some (.effect effect) := by
  obtain ⟨effect, found⟩ := found
  obtain ⟨later, foundLater, _⟩ := advanced.effects id effect found
  exact ⟨later, foundLater⟩

/-- A step that was observed by someone else, and that may have held on to something. -/
theorem Advanced.observed {observer : Option Nat} {holds : List Part} (held : List Part)
    (advanced : Advanced except { machine with graph := { machine.graph with observer }, held := holds } after) :
    Advanced except machine
      { after with graph := { after.graph with observer := machine.graph.observer }, held } :=
  ⟨advanced.size, advanced.depth, rfl, advanced.effects, advanced.created, advanced.watched⟩

theorem Moved.untracked (sound : Sound machine)
    (moved : Moved { machine with graph := { machine.graph with observer := none } } after) :
    Moved machine { after with graph := { after.graph with observer := machine.graph.observer } } := by
  refine ⟨moved.sound.observe _ fun id observed => ?_, moved.advanced.observed _, fun inBatch => ?_⟩
  · exact moved.advanced.effect (sound.observing id observed)
  · intro id effect found _
    exact moved.quiet inBatch id effect found (by simp)

theorem Ran.untracked (sound : Sound machine)
    (ran : Ran { machine with graph := { machine.graph with observer := none } } after) :
    Ran machine { after with graph := { after.graph with observer := machine.graph.observer } } :=
  ⟨ran.toMoved.untracked sound, ran.settled⟩

theorem Sound.leaveBatch (sound : Sound machine) (bodied : machine.graph.depth - 1 = 0 → Bodied machine) :
    Sound { machine with graph := machine.graph.leaveBatch false } := by
  rw [leaveBatch_false]
  exact sound.of_sameCells (fun _ => .inl rfl) (fun _ => rfl) (fun _ => rfl) sound.observing sound.scripted bodied

/-- A step that was taken in a batch. -/
theorem Advanced.batched
    (advanced : Advanced except { machine with graph := machine.graph.enterBatch } after) :
    Advanced except machine { after with graph := after.graph.leaveBatch false } := by
  rw [leaveBatch_false]
  refine ⟨advanced.size, ?_, advanced.observer, advanced.effects, advanced.created, advanced.watched⟩
  show after.graph.depth - 1 = machine.graph.depth
  rw [advanced.depth]
  rfl

theorem Moved.batched (sound : Sound machine)
    (moved : Moved { machine with graph := machine.graph.enterBatch } after) :
    Moved machine { after with graph := after.graph.leaveBatch false } := by
  refine ⟨moved.sound.leaveBatch fun closed => moved.advanced.bodied (sound.bodied ?_), moved.advanced.batched,
    fun _ => ?_⟩
  · have depth : after.graph.depth = machine.graph.depth + 1 := moved.advanced.depth
    omega
  · rw [leaveBatch_false]
    exact moved.quiet (Nat.succ_pos _)

/-! New cells. -/

/-- There is no exception if the one in question did as all others do. -/
theorem Advanced.close {id : Nat} (advanced : Advanced (· = id) before after)
    (body : ∀ effect later, before.graph.content? id = some (.effect effect) →
      after.graph.content? id = some (.effect later) → later.disposed = false → later.body = effect.body)
    (created : before.graph.vertices.size ≤ id → ∀ effect, after.graph.content? id = some (.effect effect) →
      effect.disposed = false → effect.body.isSome)
    (watched : after.graph.IsLive id → Watched after id) : Advanced (fun _ => False) before after := by
  refine ⟨advanced.size, advanced.depth, advanced.observer, fun other effect found => ?_, fun other effect found => ?_,
    fun other _ live old => ?_⟩
  · obtain ⟨later, foundLater, kept⟩ := advanced.effects other effect found
    refine ⟨later, foundLater, fun awake => ⟨(kept awake).1, fun _ => ?_⟩⟩
    by_cases here : other = id
    · subst here
      exact body effect later found foundLater awake
    · exact (kept awake).2 here
  · refine (advanced.created other effect found).imp_right fun ⟨new, bodied⟩ => ⟨new, fun _ => ?_⟩
    by_cases here : other = id
    · subst here
      exact created new effect found
    · exact bodied here
  · by_cases here : other = id
    · subst here
      exact watched live
    · exact advanced.watched other here live old

/-! New members. -/

theorem sound_add (sound : Sound machine) (content : Content (ScriptCode Memory) (Task (ScriptCode Memory)))
    (meant : ∀ computed, content = .computed computed →
      computed.stale = true ∧ computed.computing = false ∧ ∃ query, computed.code.query? = some query)
    (scripted : ∀ effect, content = .effect effect →
      effect.cleanup = none ∧ ∃ script, effect.body = some (.host (.script script))) :
    Sound { machine with graph := (machine.graph.add content).2 } := by
  refine ⟨sound.coherent.add content fun computed same => ?_, ?_, ?_, ?_, ?_⟩
  · obtain ⟨stale, _, means⟩ := meant computed same
    exact ⟨stale, means⟩
  · intro id computed found busy
    rw [content?_add] at found
    split at found
    · rw [(meant computed (Option.some.inj found)).2.1] at busy
      cases busy
    · exact sound.waiting id computed found busy
  · intro observer observed
    obtain ⟨effect, found⟩ := sound.observing observer observed
    have inside := machine.graph.lt_size_of_content? found
    exact ⟨effect, by rw [content?_add, if_neg (by omega), found]⟩
  · intro id effect found
    rw [content?_add] at found
    split at found
    · obtain ⟨noCleanup, script, body⟩ := scripted effect (Option.some.inj found)
      refine ⟨fun other same => ?_, fun code same => ?_⟩
      · rw [body] at same
        cases same
        exact ⟨script, rfl⟩
      · rw [noCleanup] at same
        cases same
    · exact sound.scripted id effect found
  · intro closed id effect found awake
    rw [content?_add] at found
    split at found
    · obtain ⟨_, script, body⟩ := scripted effect (Option.some.inj found)
      rw [body]
      rfl
    · exact sound.bodied closed id effect found awake

theorem advanced_add (content : Content (ScriptCode Memory) (Task (ScriptCode Memory))) :
    Advanced (· = machine.graph.vertices.size) machine { machine with graph := (machine.graph.add content).2 } := by
  refine ⟨by simp, rfl, rfl, fun id effect found => ?_, fun id effect found => ?_, fun id old live watched => ?_⟩
  · have inside := machine.graph.lt_size_of_content? found
    exact ⟨effect, by rw [content?_add, if_neg (by omega), found], fun awake => ⟨awake, fun _ => rfl⟩⟩
  · rw [content?_add] at found
    split at found
    next here => exact .inr ⟨by omega, fun old => absurd here old⟩
    next => exact .inl ⟨effect, found⟩
  · obtain ⟨effect, found, _⟩ := live
    have inside : id < machine.graph.vertices.size + 1 := by
      simpa using Graph.lt_size_of_content? _ found
    exact (watched (by omega)).of_kept (fun waits => waits) rfl (sources_add ..)
      (fun cell _ value holds => current?_add content holds) (fun _ _ => rfl)

theorem quiet_add (content : Content (ScriptCode Memory) (Task (ScriptCode Memory))) :
    Quiet except machine { machine with graph := (machine.graph.add content).2 } := by
  intro id _ _ _ source member
  simpa using member

/-- Making a cell. -/
theorem ran_add (sound : Sound machine) (content : Content (ScriptCode Memory) (Task (ScriptCode Memory)))
    (cell : ∀ effect, content ≠ .effect effect)
    (meant : ∀ computed, content = .computed computed →
      computed.stale = true ∧ computed.computing = false ∧ ∃ query, computed.code.query? = some query) :
    Ran machine { machine with graph := (machine.graph.add content).2 } := by
  have noEffect (effect : Effect (ScriptCode Memory) (Task (ScriptCode Memory))) :
      (machine.graph.add content).2.content? machine.graph.vertices.size ≠ some (.effect effect) := by
    rw [content?_add, if_pos rfl]
    exact fun same => cell effect (Option.some.inj same)
  refine ⟨⟨sound_add sound content meant fun effect same => absurd same (cell effect), ?_, fun _ => quiet_add content⟩,
    fun _ empty => empty⟩
  refine (advanced_add content).close (fun _ later _ new => absurd new (noEffect later))
    (fun _ later new => absurd new (noEffect later)) ?_
  rintro ⟨later, new, _⟩
  exact absurd new (noEffect later)

/-! Reading. -/

theorem Sound.ready (sound : Sound machine) (query : Query) :
    Machine.Ready .any ScriptCode.query? query machine := by
  refine ⟨sound.coherent, fun observer observed => ?_, .inl trivial⟩
  obtain ⟨effect, found⟩ := sound.observing observer observed
  refine ⟨machine.graph.lt_size_of_content? found, ?_⟩
  rintro ⟨computed, other, _⟩
  rw [found] at other
  cases other

private theorem effect_refreshed {graph later : Graph (ScriptCode Memory) (Task (ScriptCode Memory))}
    (refreshed : graph.Refreshed later) {id : Nat} {effect : Effect (ScriptCode Memory) (Task (ScriptCode Memory))} :
    later.content? id = some (.effect effect) ↔ graph.content? id = some (.effect effect) := by
  rcases refreshed.content id with same | ⟨_, _, old, _, _, new⟩
  · rw [same]
  · simp [old, new]

/-- A read together with the note that is taken of it. -/
private theorem ran_read {cell : Nat} {value : Value} (sound : Sound before)
    (evaluated : Machine.Evaluated ScriptCode.query? (.read cell .answer) before value after) :
    Ran before { after with world := after.world.note after.graph.observer cell value } := by
  have refreshed := evaluated.refreshed
  have world : after.world = before.world := by rw [evaluated.frame]
  have alike {id : Nat} {effect : Effect (ScriptCode Memory) (Task (ScriptCode Memory))} :
      after.graph.content? id = some (.effect effect) ↔ before.graph.content? id = some (.effect effect) :=
    effect_refreshed refreshed
  have unrenewed {id : Nat} {effect : Effect (ScriptCode Memory) (Task (ScriptCode Memory))}
      (found : before.graph.content? id = some (.effect effect)) : ¬ before.graph.Renewed after.graph id := by
    rintro ⟨_, _, old, _⟩
    rw [found] at old
    cases old
  refine ⟨⟨⟨evaluated.coherent, refreshed.busyWithin sound.waiting, ?_, ?_, ?_⟩, ⟨?_, ?_, ?_, ?_, ?_, ?_⟩, ?_⟩, ?_⟩
  · intro observer observed
    obtain ⟨effect, found⟩ := sound.observing observer (refreshed.observer ▸ observed)
    exact ⟨effect, alike.2 found⟩
  · exact fun id effect found => sound.scripted id effect (alike.1 found)
  · exact fun closed id effect found => sound.bodied (refreshed.depth ▸ closed) id effect (alike.1 found)
  · exact Nat.le_of_eq refreshed.size.symm
  · exact refreshed.depth
  · exact refreshed.observer
  · exact fun id effect found => ⟨effect, alike.2 found, fun awake => ⟨awake, fun _ => rfl⟩⟩
  · exact fun id effect found => .inl ⟨effect, alike.1 found⟩
  · intro id _ live watched
    obtain ⟨effect, found, _⟩ := live
    have inside : id < before.graph.vertices.size := before.graph.lt_size_of_content? (alike.1 found)
    by_cases observed : before.graph.observer = some id
    · refine (watched inside).imp (fun waits => refreshed.queue.symm ▸ waits) fun ⟨noted, covered⟩ => ⟨?_, ?_⟩
      all_goals simp only [ScriptWorld.note, refreshed.observer, observed, world, if_true]
      · intro note member
        rcases List.mem_append.1 member with old | new
        · obtain ⟨inside, holds, same⟩ := noted note old
          exact ⟨refreshed.observed id observed inside, refreshed.current? holds, same⟩
        · cases List.mem_singleton.1 new
          cases evaluated.reads with
          | read inside holds last =>
            cases last
            exact ⟨inside id observed, holds, rfl⟩
      · intro source member
        have read : (Query.read cell .answer).Reads after.graph (· = cell) value := by
          cases evaluated.reads with
          | read _ holds last => exact .read rfl holds (by cases last; exact .answer value)
        rcases evaluated.only _ read id observed source member with old | rfl
        · obtain ⟨note, known, same⟩ := covered source old
          exact ⟨note, List.mem_append_left _ known, same⟩
        · exact ⟨_, List.mem_append_right _ (List.mem_singleton.2 rfl), rfl⟩
    · refine (watched inside).of_kept (fun waits => refreshed.queue.symm ▸ waits) ?_
        (refreshed.sources id (unrenewed (alike.1 found)) observed) (fun _ _ _ => refreshed.current?) fun _ _ => ?_
      · simp only [ScriptWorld.note, refreshed.observer, world]
        rw [if_neg (Ne.symm observed)]
      · simp only [ScriptWorld.note, world]
  · intro _ id effect found quiet
    rw [refreshed.sources id (unrenewed found) quiet]
    exact fun _ member => member
  · exact fun _ empty => refreshed.queue.trans empty

theorem ensures_read {calls : Calls (Host.scripted Memory)}
    (answers : Machine.Answers .any ScriptCode.query? calls) (sound : Sound machine) (cell : Nat) :
    Ensures .any (read calls cell) machine fun _ after => Ran machine after := by
  simp only [read, modifyWorld, ensures_bind, ensures_graph?, ensures_modify, ensures_pure]
  exact (Machine.ensures_readCell answers (sound.ready _)).mono fun value after => ran_read sound

/-! Writing. -/

private theorem moved_write {cell : Nat} {held : Value} (sound : Sound machine)
    (signal : machine.graph.content? cell = some (.signal held)) (value : Value) :
    Moved machine { machine with graph := machine.graph.write cell value, world := machine.world.change cell } := by
  have symmetric := sound.coherent.symmetric
  have inside := machine.graph.lt_size_of_content? signal
  have notified := notified_write symmetric cell value
  have alike {id : Nat} {effect : Effect (ScriptCode Memory) (Task (ScriptCode Memory))} :
      (machine.graph.write cell value).content? id = some (.effect effect) ↔
        machine.graph.content? id = some (.effect effect) :=
    effect_write symmetric signal value
  have depth : (machine.graph.write cell value).depth = machine.graph.depth := notified.depth
  have observer : (machine.graph.write cell value).observer = machine.graph.observer := notified.observer
  refine ⟨⟨sound.coherent.write inside, ?_, ?_, ?_, ?_⟩, ⟨?_, depth, observer, ?_, ?_, ?_⟩, ?_⟩
  · intro id computed found busy
    obtain ⟨earlier, old, _, same, _⟩ := computed_write symmetric inside found
    exact sound.waiting id earlier old (same.trans busy)
  · intro id observed
    obtain ⟨effect, found⟩ := sound.observing id (observer ▸ observed)
    exact ⟨effect, alike.2 found⟩
  · exact fun id effect found => sound.scripted id effect (alike.1 found)
  · exact fun closed id effect found => sound.bodied (depth ▸ closed) id effect (alike.1 found)
  · have size : (machine.graph.write cell value).vertices.size = _ := notified.size
    simp only [size_setSignal] at size
    exact Nat.le_of_eq size.symm
  · exact fun id effect found => ⟨effect, alike.2 found, fun awake => ⟨awake, fun _ => rfl⟩⟩
  · exact fun id effect found => .inl ⟨effect, alike.1 found⟩
  · intro id _ live watched
    by_cases waits : id ∈ (machine.graph.write cell value).queue
    · exact .inl waits
    have untold : ¬ (machine.graph.write cell value).Told id := fun told => waits (told.2 live)
    obtain ⟨sources, apart, contents⟩ := untold_write symmetric untold
    obtain ⟨effect, found, _⟩ := live
    refine (watched (machine.graph.lt_size_of_content? (alike.1 found))).of_kept (fun old => notified.queue old) rfl sources
      (fun source member held holds => (current?_congr (contents source member)).trans holds) fun source member => ?_
    have other : source ≠ cell := fun same => apart (same ▸ member)
    simp only [ScriptWorld.change, if_neg other]
  · intro _ id _ _ _
    rcases notified.sources id with same | ⟨_, gone⟩
    · show (machine.graph.write cell value).sources id ⊆ _
      rw [same, sources_setSignal]
      exact fun _ member => member
    · show (machine.graph.write cell value).sources id ⊆ _
      rw [gone]
      exact List.nil_subset _

/-- Calls run the effects that wait. -/
def Flushes (calls : Calls (Host.scripted Memory)) : Prop :=
  ∀ machine, Sound machine → Ensures .any calls.flush machine fun _ after => Flushed machine after

theorem ensures_rewrite {calls : Calls (Host.scripted Memory)} (flushes : Flushes calls) (sound : Sound machine)
    (cell : Nat) (value : Value) :
    Ensures .any (rewrite calls cell value) machine fun _ after => Ran machine after := by
  simp only [rewrite, onSignal, ensures_bind, ensures_graph?]
  split
  next held signal =>
    simp only [modifyWorld, Machine.updateSignal, Machine.changed, ensures_bind, ensures_modify,
      Machine.ensures_modifyGraph]
    have moved := moved_write sound signal value
    exact (flushes _ moved.sound).mono fun _ after flushed => moved.flushed flushed
  next => trivial

theorem ensures_write {calls : Calls (Host.scripted Memory)} (flushes : Flushes calls) (sound : Sound machine)
    (cell : Nat) (value : Value) :
    Ensures .any (write calls cell value) machine fun _ after => Ran machine after := by
  simp only [write, onSignal, ensures_bind, ensures_graph?]
  split
  next held signal =>
    have value? : machine.graph.value? cell = some held := by simp [Graph.value?, signal]
    by_cases same : held.same value = true
    · simp [same, Machine.writeSignal, Machine.peek, value?, Ran.refl sound]
    · simp only [same, Bool.not_false, if_true, modifyWorld, Machine.writeSignal, Machine.peek, Machine.changed,
        ensures_bind, ensures_graph?, ensures_modify, ensures_pure, value?, Option.getD_some, Bool.false_eq_true,
        if_false, Machine.ensures_modifyGraph]
      have moved := moved_write sound signal value
      exact (flushes _ moved.sound).mono fun _ after flushed => moved.flushed flushed
  next => trivial

end ReactiveMarkup.Script
