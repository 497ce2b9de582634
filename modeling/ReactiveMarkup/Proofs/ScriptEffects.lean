import ReactiveMarkup.Proofs.ScriptSteps

/-! Running, making and ending effects. An effect that has run is watched again; all others
stay as they were or come to wait. -/

namespace ReactiveMarkup.Script

open ReactiveMarkup.Graph ReactiveMarkup.Step

variable {Memory : Type} {except : Nat → Prop} {before middle after machine : Machine (Host.scripted Memory)}

/-! Changes of one effect. -/

theorem sameCells_modifyEffect {Code Body : Type} (graph : Graph Code Body) (id : Nat)
    (f : Effect Code Body → Effect Code Body) : graph.SameCells (graph.modifyEffect id f) := by
  intro other
  by_cases here : other = id
  · subst here
    rw [content?_modifyEffect, if_pos rfl]
    split
    next effect found => exact .inr ⟨effect, f effect, found, rfl⟩
    next => exact .inl rfl
  · exact .inl (content?_modifyEffect_of_ne _ _ here)

section

variable {id : Nat} {effect : Effect (ScriptCode Memory) (Task (ScriptCode Memory))}
  (f : Effect (ScriptCode Memory) (Task (ScriptCode Memory)) → Effect (ScriptCode Memory) (Task (ScriptCode Memory)))

theorem sound_modifyEffect (sound : Sound machine) (found : machine.graph.content? id = some (.effect effect))
    (body : ∀ body, (f effect).body = some body → ∃ script, body = .host (.script script))
    (cleanup : ∀ code, (f effect).cleanup = some code → ∃ script, code = .script script)
    (bodied : machine.graph.depth = 0 → (f effect).disposed = false → (f effect).body.isSome) :
    Sound { machine with graph := machine.graph.modifyEffect id f } := by
  refine sound.of_sameCells (sameCells_modifyEffect _ _ _) (by simp) (by simp) sound.observing ?_ ?_
  · intro other later foundLater
    by_cases here : other = id
    · subst here
      rw [content?_modifyEffect_self _ _ found] at foundLater
      cases foundLater
      exact ⟨body, cleanup⟩
    · rw [content?_modifyEffect_of_ne _ _ here] at foundLater
      exact sound.scripted other later foundLater
  · intro closed other later foundLater awake
    by_cases here : other = id
    · subst here
      rw [content?_modifyEffect_self _ _ found] at foundLater
      cases foundLater
      exact bodied closed awake
    · rw [content?_modifyEffect_of_ne _ _ here] at foundLater
      exact sound.bodied closed other later foundLater awake

theorem watched_modifyEffect {other : Nat} (watched : Watched machine other) :
    Watched { machine with graph := machine.graph.modifyEffect id f } other :=
  watched.of_kept (fun waits => waits) rfl (sources_modifyEffect ..)
    (fun cell _ _ holds => ((sameCells_modifyEffect _ _ _).current? cell).trans holds) fun _ _ => rfl

theorem advanced_modifyEffect (found : machine.graph.content? id = some (.effect effect))
    (kept : (f effect).disposed = false → effect.disposed = false ∧ (¬ except id → (f effect).body = effect.body)) :
    Advanced except machine { machine with graph := machine.graph.modifyEffect id f } := by
  refine ⟨by simp, rfl, rfl, fun other earlier was => ?_, fun other later foundLater => .inl ?_,
    fun other _ live watched => watched_modifyEffect f (watched ?_)⟩
  · by_cases here : other = id
    · subst here
      rw [found] at was
      cases was
      exact ⟨f effect, content?_modifyEffect_self _ _ found, kept⟩
    · exact ⟨earlier, (content?_modifyEffect_of_ne _ _ here).trans was, fun awake => ⟨awake, fun _ => rfl⟩⟩
  · by_cases here : other = id
    · exact ⟨effect, here ▸ found⟩
    · exact ⟨later, (content?_modifyEffect_of_ne _ _ here).symm.trans foundLater⟩
  · obtain ⟨later, foundLater, _⟩ := live
    simpa using Graph.lt_size_of_content? _ foundLater

theorem quiet_modifyEffect : Quiet except machine { machine with graph := machine.graph.modifyEffect id f } := by
  intro other _ _ _ source member
  simpa using member

end

/-! An effect forgets what it read. -/

theorem sound_release (sound : Sound machine) {id : Nat} {effect : Effect (ScriptCode Memory) (Task (ScriptCode Memory))}
    (found : machine.graph.content? id = some (.effect effect)) :
    Sound { machine with graph := machine.graph.release id } := by
  refine ⟨?_, ?_, ?_, ?_, ?_⟩
  · refine sound.coherent.of_sameCells (fun _ => .inl (content?_release ..)) (symmetric_release sound.coherent.symmetric id) ?_
    intro other fresh
    rw [sources_release, if_neg]
    · exact fun _ member => member
    rintro rfl
    obtain ⟨computed, other, _⟩ := isFresh_iff.1 fresh
    rw [content?_release, found] at other
    cases other
  · intro other computed foundOther
    rw [content?_release] at foundOther
    exact sound.waiting other computed foundOther
  · intro observer observed
    simp only [observer_release] at observed
    simpa using sound.observing observer observed
  · intro other later foundLater
    rw [content?_release] at foundLater
    exact sound.scripted other later foundLater
  · intro closed other later foundLater
    rw [content?_release] at foundLater
    simp only [depth_release] at closed
    exact sound.bodied closed other later foundLater

theorem advanced_release (id : Nat) :
    Advanced (· = id) machine { machine with graph := machine.graph.release id } := by
  refine ⟨by simp, by simp, by simp, fun other effect found => ?_, fun other effect found => .inl ⟨effect, ?_⟩,
    fun other apart live watched => (watched ?_).of_kept ?_ rfl ?_ (fun cell _ _ holds => ?_) fun _ _ => rfl⟩
  · exact ⟨effect, by simpa using found, fun awake => ⟨awake, fun _ => rfl⟩⟩
  · simpa using found
  · obtain ⟨effect, found, _⟩ := live
    simpa using Graph.lt_size_of_content? _ found
  · simp
  · rw [sources_release, if_neg apart]
  · rw [current?_congr (content?_release ..), holds]

theorem quiet_release (id : Nat) : Quiet except machine { machine with graph := machine.graph.release id } := by
  intro other _ _ _ source member
  rw [sources_release] at member
  split at member
  · cases member
  · exact member

/-! Cleaning up. -/

/-- Calls run scripts. -/
def CallsScripts (calls : Calls (Host.scripted Memory)) : Prop :=
  ∀ script machine, Sound machine →
    Ensures .any (calls.call (.script script) []) machine fun _ after => Ran machine after

/-- What is left behind by a step that nobody observes. -/
structure RanUnobserved (before after : Machine (Host.scripted Memory)) : Prop extends Ran before after where
  unread : 0 < before.graph.depth → Quiet (fun _ => False) before after

theorem RanUnobserved.refl (sound : Sound machine) : RanUnobserved machine machine :=
  ⟨.refl sound, fun _ _ _ _ _ _ member => member⟩

theorem RanUnobserved.trans (first : RanUnobserved before middle) (second : RanUnobserved middle after) :
    RanUnobserved before after :=
  ⟨first.toRan.trans second.toRan, fun inBatch =>
    (first.unread inBatch).trans (second.unread (first.advanced.depth ▸ inBatch)) first.advanced⟩

theorem ensures_untracked_call {calls : Calls (Host.scripted Memory)} (scripts : CallsScripts calls)
    (sound : Sound machine) (script : Script Memory) :
    Ensures .any (discard (Machine.untrack (calls.call (.script script) []))) machine fun _ after =>
      RanUnobserved machine after := by
  simp only [ensures_discard, Machine.untrack, Machine.ensures_observedBy]
  refine (scripts script _ (sound.observe none (by simp))).mono fun _ after ran => ⟨ran.untracked sound, ?_⟩
  intro inBatch id effect found _
  exact ran.quiet inBatch id effect found (by simp)

/-- A change of the cleanup of an effect. -/
theorem ranUnobserved_cleanup {id : Nat} {effect : Effect (ScriptCode Memory) (Task (ScriptCode Memory))}
    (sound : Sound machine) (found : machine.graph.content? id = some (.effect effect))
    (cleanup : Option (ScriptCode Memory)) (scripted : ∀ code, cleanup = some code → ∃ script, code = .script script) :
    RanUnobserved machine
      { machine with graph := machine.graph.modifyEffect id fun effect => { effect with cleanup } } :=
  ⟨⟨⟨sound_modifyEffect _ sound found (sound.scripted id effect found).1 scripted fun closed =>
      sound.bodied closed id effect found, advanced_modifyEffect _ found fun awake => ⟨awake, fun _ => rfl⟩,
    fun _ => quiet_modifyEffect _⟩, fun _ empty => empty⟩, fun _ => quiet_modifyEffect _⟩

theorem ensures_runCleanup {calls : Calls (Host.scripted Memory)} (scripts : CallsScripts calls)
    (sound : Sound machine) (id : Nat) :
    Ensures .any (Machine.runCleanup calls id) machine fun _ after => RanUnobserved machine after := by
  simp only [Machine.runCleanup, ensures_bind, ensures_graph?]
  split
  next => exact .refl sound
  next code stored =>
    obtain ⟨effect, found, kept⟩ := Option.bind_eq_some_iff.1 stored
    have found := machine.graph.effect?_eq_some.1 found
    obtain ⟨script, rfl⟩ := (sound.scripted id effect found).2 code kept
    have first := ranUnobserved_cleanup sound found none (by simp)
    simp only [ensures_bind, Machine.ensures_modifyGraph]
    exact (ensures_untracked_call scripts first.sound script).mono fun _ after second => first.trans second

theorem ensures_settleCleanup {calls : Calls (Host.scripted Memory)} (scripts : CallsScripts calls)
    {id : Nat} {effect : Effect (ScriptCode Memory) (Task (ScriptCode Memory))}
    (sound : Sound machine) (found : machine.graph.content? id = some (.effect effect))
    (cleanup : Option (ScriptCode Memory)) (scripted : ∀ code, cleanup = some code → ∃ script, code = .script script) :
    Ensures .any (Machine.settleCleanup calls id cleanup) machine fun _ after => RanUnobserved machine after := by
  simp only [Machine.settleCleanup, ensures_bind, ensures_graph?]
  split
  · cases cleanup with
    | none => exact .refl sound
    | some code =>
      obtain ⟨script, rfl⟩ := scripted code rfl
      exact ensures_untracked_call scripts sound script
  · exact ranUnobserved_cleanup sound found cleanup scripted

/-! Running an effect. -/

/-- What a step does as the body of an effect: it starts to read anew, and after it has run the
effect is watched. -/
def RunsBody (step : ScriptRun Memory (Option (ScriptCode Memory))) : Prop :=
  ∀ machine id, Sound machine → machine.graph.observer = some id → 0 < machine.graph.depth →
    machine.graph.sources id = [] →
    Ensures .any step machine fun cleanup after =>
      Ran machine after ∧ (after.graph.IsLive id → Watched after id) ∧
        ∀ code, cleanup = some code → ∃ script, code = .script script

/-- Calls run scripts as bodies of effects. -/
def PerformsScripts (calls : Calls (Host.scripted Memory)) : Prop :=
  ∀ script, RunsBody (calls.perform (.host (.script script)))

/-- What the run of an effect leaves behind. -/
structure Rerun (id : Nat) (before after : Machine (Host.scripted Memory)) : Prop where
  sound : Sound after
  advanced : Advanced (fun _ => False) before after
  quiet : Quiet (· = id) before after
  watched : after.graph.IsLive id → Watched after id

/-- The machine with another body for an effect. -/
private def withBody (machine : Machine (Host.scripted Memory)) (id : Nat) (body : Option (Task (ScriptCode Memory))) :
    Machine (Host.scripted Memory) :=
  { machine with graph := machine.graph.modifyEffect id fun effect => { effect with body } }

section

variable {calls : Calls (Host.scripted Memory)} {id : Nat} {effect : Effect (ScriptCode Memory) (Task (ScriptCode Memory))}

/-- What the body of an effect leaves behind, from taking it out to putting it back. -/
private structure RanBody (id : Nat) (script : Script Memory) (before after : Machine (Host.scripted Memory)) : Prop where
  sound : Sound after
  advanced : Advanced (· = id) before after
  quiet : Quiet (· = id) before after
  watched : after.graph.IsLive id → Watched after id
  restored : ∃ later, after.graph.content? id = some (.effect later) ∧ later.body = some (.host (.script script))

private theorem ensures_body (performs : PerformsScripts calls) (sound : Sound machine) (inBatch : 0 < machine.graph.depth)
    (found : machine.graph.content? id = some (.effect effect)) (released : machine.graph.sources id = [])
    (script : Script Memory) :
    Ensures .any (Machine.observedBy (some id) (Machine.holding (Task.parts (Task.host (ScriptCode.script script)))
        (calls.perform (Task.host (ScriptCode.script script))))) (withBody machine id none) fun cleanup after =>
      RanBody id script machine (withBody after id (some (.host (.script script)))) ∧
        ∀ code, cleanup = some code → ∃ script, code = .script script := by
  have taken : Sound (withBody machine id none) :=
    sound_modifyEffect _ sound found (by simp) (sound.scripted id effect found).2 fun closed => absurd inBatch (by omega)
  have foundTaken : (withBody machine id none).graph.content? id = some (.effect { effect with body := none }) :=
    content?_modifyEffect_self _ _ found
  have advancedTaken : Advanced (· = id) machine (withBody machine id none) :=
    advanced_modifyEffect _ found fun awake => ⟨awake, fun apart => absurd rfl apart⟩
  simp only [Machine.ensures_observedBy, Machine.ensures_holding]
  refine (performs script _ id ((taken.observe (some id) ?_).hold _) rfl inBatch ?_).mono ?_
  · rintro _ ⟨⟩
    exact ⟨_, foundTaken⟩
  · show (withBody machine id none).graph.sources id = []
    simpa [withBody] using released
  rintro cleanup after ⟨ran, watched, cleans⟩
  have advancedBack := ran.advanced.observed (withBody machine id none).held
  have soundBack := (ran.sound.observe machine.graph.observer fun other observed =>
    advancedBack.effect (advancedTaken.effect (sound.observing other observed))).hold (withBody machine id none).held
  obtain ⟨later, foundLater, _⟩ := advancedBack.effects id _ foundTaken
  refine ⟨⟨?_, ?_, ?_, fun live => watched_modifyEffect _ (watched ?_), _, content?_modifyEffect_self _ _ foundLater, rfl⟩,
    cleans⟩
  · refine sound_modifyEffect _ soundBack foundLater ?_ (soundBack.scripted id later foundLater).2 fun _ _ => rfl
    rintro _ ⟨⟩
    exact ⟨script, rfl⟩
  · refine (advancedTaken.trans (advancedBack.mono ?_)).trans ?_
    · exact fun _ => False.elim
    · exact advanced_modifyEffect _ foundLater fun awake => ⟨awake, fun apart => absurd rfl apart⟩
  · refine ((quiet_modifyEffect _).trans ?_ advancedTaken).trans (quiet_modifyEffect _) (advancedTaken.trans
      (advancedBack.mono fun _ => False.elim))
    intro other earlier foundEarlier apart
    exact ran.quiet inBatch other earlier foundEarlier fun same => apart (Option.some.inj same).symm
  · obtain ⟨final, foundFinal, awake⟩ := live
    rw [show (withBody _ id _).graph.content? id = _ from content?_modifyEffect_self _ _ foundLater] at foundFinal
    cases foundFinal
    exact ⟨later, foundLater, awake⟩

private theorem Rerun.refl (sound : Sound machine) (dead : ¬ machine.graph.IsLive id) : Rerun id machine machine :=
  ⟨sound, .refl machine, fun _ _ _ _ _ member => member, (absurd · dead)⟩

theorem ensures_runEffect (scripts : CallsScripts calls) (performs : PerformsScripts calls) (sound : Sound machine)
    (inBatch : 0 < machine.graph.depth)
    (bodied : ∀ effect, machine.graph.content? id = some (.effect effect) → effect.disposed = false → effect.body.isSome) :
    Ensures .any (Machine.runEffect calls id) machine fun _ after => Rerun id machine after := by
  simp only [Machine.runEffect, ensures_bind, ensures_graph?]
  split
  next missing =>
    refine Rerun.refl sound ?_
    rintro ⟨effect, found, _⟩
    rw [machine.graph.effect?_eq_some.2 found] at missing
    cases missing
  next effect found =>
  replace found := machine.graph.effect?_eq_some.1 found
  by_cases disposed : effect.disposed = true
  · simp only [disposed, if_true, ensures_pure]
    refine Rerun.refl sound ?_
    rintro ⟨other, again, live⟩
    rw [found] at again
    cases again
    rw [disposed] at live
    cases live
  have awake : effect.disposed = false := by simpa using disposed
  simp only [awake, Bool.false_eq_true, if_false, ensures_bind, ensures_graph?, Machine.ensures_modifyGraph]
  have released := sound_release sound found
  have advanced₁ : Advanced (· = id) machine { machine with graph := machine.graph.release id } := advanced_release id
  refine (ensures_runCleanup scripts released id).mono fun _ cleaned first => ?_
  have advanced₂ := advanced₁.trans (first.advanced.mono fun _ => False.elim)
  have inBatchNow : 0 < cleaned.graph.depth := advanced₂.depth ▸ inBatch
  have unread := first.unread (show 0 < (machine.graph.release id).depth by simpa using inBatch)
  have quiet₂ : Quiet (· = id) machine cleaned := by
    refine (quiet_release id).trans ?_ advanced₁
    exact fun other earlier was _ => unread other earlier was not_false
  obtain ⟨later, foundLater, kept⟩ :=
    first.advanced.effects id effect (show (machine.graph.release id).content? id = _ by simpa using found)
  have empty : cleaned.graph.sources id = [] := by
    have fewer := unread id effect (by simpa using found) not_false
    simpa [sources_release] using fewer
  have effect?_eq := cleaned.graph.effect?_eq_some.2 foundLater
  simp only [effect?_eq, Option.bind_some]
  cases body : later.body with
  | none =>
    have gone : later.disposed ≠ false := fun live => by
      have some := bodied effect found awake
      rw [← (kept live).2 not_false, body] at some
      cases some
    have dead : ¬ cleaned.graph.IsLive id := by
      rintro ⟨other, again, live⟩
      rw [foundLater] at again
      cases again
      exact gone live
    refine ⟨first.sound, advanced₂.close ?_ ?_ (absurd · dead), quiet₂, (absurd · dead)⟩
    · intro _ other _ again live
      exact absurd ⟨other, again, live⟩ dead
    · intro _ other again live
      exact absurd ⟨other, again, live⟩ dead
  | some task =>
    obtain ⟨script, rfl⟩ := (first.sound.scripted id later foundLater).1 task body
    simp only [ensures_bind, Machine.ensures_modifyGraph, ensures_after]
    refine (ensures_body performs first.sound inBatchNow foundLater empty script).mono ?_
    rintro cleanup between ⟨second, cleans⟩
    obtain ⟨last, foundLast, restored⟩ := second.restored
    refine (ensures_settleCleanup scripts second.sound foundLast cleanup cleans).mono fun _ after third => ?_
    have advanced₃ := (advanced₂.trans second.advanced).trans (third.advanced.mono fun _ => False.elim)
    have watched (live : after.graph.IsLive id) : Watched after id :=
      third.advanced.watched id not_false live fun inside => second.watched (third.advanced.isLive live inside)
    refine ⟨third.sound, advanced₃.close ?_ ?_ watched, ?_, watched⟩
    · intro other final was foundFinal live
      rw [found] at was
      cases was
      obtain ⟨again, foundAgain, keptThird⟩ := third.advanced.effects id last foundLast
      rw [foundFinal] at foundAgain
      cases foundAgain
      obtain ⟨liveLast, same⟩ := keptThird live
      obtain ⟨middle, foundMiddle, liveMiddle⟩ :=
        second.advanced.isLive ⟨last, foundLast, liveLast⟩ (cleaned.graph.lt_size_of_content? foundLater)
      rw [foundLater] at foundMiddle
      cases foundMiddle
      rw [same not_false, restored, ← (kept liveMiddle).2 not_false, body]
    · exact fun new => absurd (machine.graph.lt_size_of_content? found) (by omega)
    · refine (quiet₂.trans second.quiet advanced₂).trans ?_ (advanced₂.trans second.advanced)
      exact fun other earlier was _ =>
        third.unread (second.advanced.depth ▸ inBatchNow) other earlier was not_false

end

end ReactiveMarkup.Script
