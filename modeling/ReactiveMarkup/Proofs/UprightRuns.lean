import ReactiveMarkup.Proofs.GentleChanges
import ReactiveMarkup.Proofs.GrowingTrees
import ReactiveMarkup.Proofs.PanicRecovery
import ReactiveMarkup.Proofs.ScriptEffects

/-! Scripts and effects over trees: however they end, they do to trees only what effects of nodes do, and in a
batch none of these runs but the one that is made. -/

namespace ReactiveMarkup.Rendering

open ReactiveMarkup.Step ReactiveMarkup.Graph ReactiveMarkup.Machine

variable {Memory : Type} {α β : Type} {start machine before after : Stage Memory} {id : Nat} {roots more : NodeId → Prop} {whole : Prop}
  {calls : Calls (Host.rendering Memory)}

theorem Coherent.modifyEffect {graph : Graph (Code Memory) (Task (Code Memory))} (coherent : graph.Coherent Code.query?) (id : Nat)
    (f : Effect (Code Memory) (Task (Code Memory)) → Effect (Code Memory) (Task (Code Memory))) : (graph.modifyEffect id f).Coherent Code.query? :=
  coherent.of_sameCells (Script.sameCells_modifyEffect graph id f) (symmetric_of_same coherent.symmetric (by simp) (by simp))
    fun _ _ source member => by simpa using member

/-- A signal stays one whatever happens to an effect. -/
theorem exists_signal_modifyEffect (graph : Graph (Code Memory) (Task (Code Memory))) (id : Nat)
    (f : Effect (Code Memory) (Task (Code Memory)) → Effect (Code Memory) (Task (Code Memory))) (cell : Nat) (value : Value)
    (found : graph.content? cell = some (.signal value)) : ∃ later, (graph.modifyEffect id f).content? cell = some (.signal later) :=
  ⟨value, ((Script.sameCells_modifyEffect graph id f).content?_iff (by simp)).2 found⟩

/-- The body of an effect is taken out while it runs. -/
theorem Upright.taken (upright : Upright machine) {effect : Effect (Code Memory) (Task (Code Memory))} (found : machine.graph.content? id = some (.effect effect)) :
    Upright { machine with graph := machine.graph.modifyEffect id fun effect => { effect with body := none } } := by
  have fit : (machine.graph.modifyEffect id fun effect => { effect with body := none }).Fit Task.Formed :=
    upright.fit.modifyEffect id (fun effect => { effect with body := none }) fun _ _ never => absurd never.symm (Option.some_ne_none _)
  refine ⟨fit, Coherent.modifyEffect upright.coherent id _, fun observer observed => ?_, upright.formed, upright.known, upright.acyclic,
    fun other node foundNode => (upright.fair other node foundNode).mono (exists_signal_modifyEffect machine.graph id _)⟩
  obtain ⟨watching, foundWatching⟩ := upright.observing observer observed
  by_cases here : observer = id
  · subst here
    exact ⟨_, content?_modifyEffect_self _ _ found⟩
  · exact ⟨watching, (content?_modifyEffect_of_ne _ _ here).trans foundWatching⟩

/-- An effect comes to be the observer. -/
theorem Upright.observe (upright : Upright machine) {effect : Effect (Code Memory) (Task (Code Memory))} (found : machine.graph.content? id = some (.effect effect)) :
    Upright { machine with graph := { machine.graph with observer := some id } } := by
  refine ⟨upright.fit.observe fun observer observed => ?_, upright.coherent.of_vertices rfl, ?_, upright.formed, upright.known, upright.acyclic, upright.fair⟩
  · cases observed
    exact machine.graph.lt_size_of_content? found
  · rintro _ ⟨⟩
    exact ⟨_, found⟩

theorem Coherent.release {graph : Graph (Code Memory) (Task (Code Memory))} (coherent : graph.Coherent Code.query?)
    {effect : Effect (Code Memory) (Task (Code Memory))} (found : graph.content? id = some (.effect effect)) : (graph.release id).Coherent Code.query? := by
  refine coherent.of_sameCells (fun _ => .inl (content?_release ..)) (symmetric_release coherent.symmetric id) fun other fresh => ?_
  rw [sources_release, if_neg]
  · exact fun _ member => member
  rintro rfl
  obtain ⟨computed, isCell, _⟩ := isFresh_iff.1 fresh
  rw [content?_release, found] at isCell
  cases isCell

theorem Coherent.retire {graph : Graph (Code Memory) (Task (Code Memory))} (coherent : graph.Coherent Code.query?)
    {effect : Effect (Code Memory) (Task (Code Memory))} (found : graph.content? id = some (.effect effect)) : (graph.retire id).Coherent Code.query? := by
  have foundMarked : (graph.modifyEffect id fun effect => { effect with disposed := true }).content? id = some (.effect { effect with disposed := true }) :=
    content?_modifyEffect_self _ _ found
  have dequeued : ((graph.modifyEffect id fun effect => { effect with disposed := true }).dequeue id).Coherent Code.query? :=
    (Coherent.modifyEffect coherent id _).of_vertices rfl
  exact Coherent.release dequeued foundMarked

/-- A step, in the middle of one that has begun somewhere, is about some nodes, however it ends. -/
def Tends (roots : NodeId → Prop) (start : Stage Memory) (step : Act Memory α) (machine : Stage Memory) : Prop :=
  Alters roots (∃ value, (step.run machine).1 = .done value) start (step.run machine).2

/-- A step that is about no node. -/
abbrev Tends.off (step : Act Memory α) (machine : Stage Memory) : Prop := Tends (fun _ => False) machine step machine

namespace Tends

variable {step : Act Memory α} {next : α → Act Memory β}

theorem of_done {value : α} (tends : Tends roots start step machine) (ran : step.run machine = (.done value, after)) : Alters roots True start after := by
  rw [Tends, ran] at tends
  exact { tends with spared := fun _ => tends.spared ⟨value, rfl⟩ }

theorem of_run {ending : Ending α} (tends : Tends roots start step machine) (ran : step.run machine = (ending, after)) :
    Alters roots (∃ value, ending = .done value) start after := by
  rw [Tends, ran] at tends
  exact tends

theorem pure (alters : Alters roots True start machine) (value : α) : Tends roots start (pure value : Act Memory α) machine :=
  { alters with spared := fun _ => alters.spared trivial }

theorem panic (alters : Alters roots True start machine) (cause : Panic) : Tends roots start (Step.panic cause : Act Memory α) machine :=
  { alters with spared := nofun }

theorem exhausted (alters : Alters roots True start machine) : Tends roots start (Step.exhausted : Act Memory α) machine :=
  { alters with spared := nofun }

theorem bind (first : Tends roots start step machine)
    (rest : ∀ value between, step.run machine = (.done value, between) → Alters roots True start between → Tends roots start (next value) between) :
    Tends roots start (step >>= next) machine := by
  show Alters roots (∃ value, (Step.bind step next machine).1 = .done value) start (Step.bind step next machine).2
  rw [Step.bind]
  cases ran : step.run machine with
  | mk ending between =>
    rw [show step machine = (ending, between) from ran]
    have alters := first.of_run ran
    cases ending with
    | done value => exact rest value between ran (first.of_done ran)
    | panicked cause => exact { alters with spared := by simp }
    | exhausted => exact { alters with spared := by simp }

theorem map (tends : Tends roots start step machine) (f : α → β) : Tends roots start (f <$> step) machine := by
  rw [map_eq_pure_bind]
  exact tends.bind fun value _ _ alters => pure alters (f value)

theorem discard (tends : Tends roots start step machine) : Tends roots start (Functor.discard step) machine :=
  tends.bind fun _ _ _ alters => pure alters _

/-- A step goes on with one that is about nodes that it is about itself. -/
theorem call (alters : Alters roots True start machine) (called : Tends more machine step machine) (inside : ∀ root, more root → Owned roots start root) :
    Tends roots start step machine := alters.trans called inside

/-- A step goes on with one that is about no node. -/
theorem idle (alters : Alters roots True start machine) (called : off step machine) : Tends roots start step machine := call alters called nofun

theorem weaken (tends : off step machine) : Tends roots machine step machine := Alters.mono tends nofun

theorem of_looked (upright : Upright machine) (looks : Leaves step machine (Looked Code.query? machine)) : Tends roots machine step machine :=
  Alters.of_looked upright looks

/-- Looking at a machine changes nothing. -/
theorem seen (alters : Alters roots True start machine) (still : (step.run machine).2 = machine) : Tends roots start step machine := by
  rw [Tends, still]
  exact { alters with spared := fun _ => alters.spared trivial }

theorem seen_bind (alters : Alters roots True start machine) (still : (step.run machine).2 = machine)
    (rest : ∀ value, step.run machine = (.done value, machine) → Tends roots start (next value) machine) : Tends roots start (step >>= next) machine :=
  (seen alters still).bind fun value between ran _ => by
    obtain rfl : machine = between := still.symm.trans (congrArg Prod.snd ran)
    exact rest value ran

theorem observed {observer : Option Nat} (upright : Upright machine)
    (tends : Tends roots { machine with graph := { machine.graph with observer } } step { machine with graph := { machine.graph with observer } }) :
    Tends roots machine (observedBy observer step) machine :=
  Alters.regraph tends upright rfl rfl (fun inBatch => inBatch) (tends.kept.observed upright.fit) (tends.upright.coherent.of_vertices rfl)
    fun _ value found => ⟨value, found⟩

theorem holding {parts : List Part} (upright : Upright machine)
    (tends : Tends roots { machine with held := parts ++ machine.held } step { machine with held := parts ++ machine.held }) :
    Tends roots machine (holding parts step) machine :=
  Alters.regraph tends upright rfl rfl (fun inBatch => inBatch) tends.kept tends.upright.coherent fun _ value found => ⟨value, found⟩

theorem batched (upright : Upright machine)
    (tends : Tends roots { machine with graph := machine.graph.enterBatch } step { machine with graph := machine.graph.enterBatch }) :
    Tends roots machine (withBatch step) machine :=
  Alters.regraph tends upright rfl rfl (fun _ => Nat.succ_pos _) (tends.kept.batched _) (tends.upright.coherent.of_vertices (vertices_leaveBatch ..))
    fun _ value found => ⟨value, (content?_leaveBatch ..).trans found⟩

theorem modifyGraph {f : Graph (Code Memory) (Task (Code Memory)) → Graph (Code Memory) (Task (Code Memory))}
    (alters : Alters roots True start { machine with graph := f machine.graph }) : Tends roots start (Machine.modifyGraph f) machine :=
  { alters with spared := fun _ => alters.spared trivial }

/-- A change of the graph, and a step after it. -/
theorem modify {f : Graph (Code Memory) (Task (Code Memory)) → Graph (Code Memory) (Task (Code Memory))} {next : Unit → Act Memory β}
    (alters : Alters roots True start { machine with graph := f machine.graph })
    (rest : Alters roots True start { machine with graph := f machine.graph } → Tends roots start (next ()) { machine with graph := f machine.graph }) :
    Tends roots start (Machine.modifyGraph f >>= next) machine := rest alters

end Tends

theorem tends_graph? {next : Graph (Code Memory) (Task (Code Memory)) → Act Memory β} :
    Tends roots start (graph? >>= next) machine ↔ Tends roots start (next machine.graph) machine := Iff.rfl

/-- A node that was made after a machine was as it was. -/
def Fresh (before after : Stage Memory) (child : NodeId) : Prop := before.nodes.size ≤ child ∧ child < after.nodes.size

/-- What running the effects that wait leaves behind. -/
structure Passed (whole : Prop) (before after : Stage Memory) : Prop where
  upright : Upright after
  steady : before.graph.Steady after.graph
  grows : Grows before after
  spared : whole → ∀ id selection, Stalled after id selection → Stalled before id selection

theorem Passed.refl (upright : Upright machine) : Passed whole machine machine := ⟨upright, .refl _, .refl _, fun _ _ _ stalled => stalled⟩

theorem Passed.trans (first : Passed True before machine) (second : Passed whole machine after) : Passed whole before after :=
  ⟨second.upright, first.steady.trans second.steady, first.grows.trans second.grows,
    fun isWhole id selection stalled => first.spared trivial id selection (second.spared isWhole id selection stalled)⟩

/-- Calls that keep trees, however they end. -/
structure KeepsTrees (calls : Calls (Host.rendering Memory)) : Prop where
  answers : Answers .any Code.query? calls
  looks : Looks Code.query? calls
  call : ∀ code arguments machine, Upright machine → Tends.off (calls.call code arguments) machine
  react : ∀ code machine, Upright machine → Tends.off (calls.react code) machine
  build : ∀ code arguments machine, Upright machine → Tends.off (calls.build code arguments) machine ∧
    ∀ child after, (calls.build code arguments).run machine = (.done child, after) → Fresh machine after child
  control : ∀ code inputs machine, Upright machine → Tends.off (calls.control code inputs) machine
  view : ∀ code context slots machine, Upright machine → Tends.off (calls.view code context slots) machine ∧
    ∀ child after, (calls.view code context slots).run machine = (.done (some child), after) → Fresh machine after child
  perform : ∀ task machine, task.Formed → Upright machine → 0 < machine.graph.depth →
    Tends (fun id => task.subject? = some id) machine (calls.perform task) machine
  flush : ∀ machine, Upright machine → Tends.off calls.flush machine
  resolve : ∀ anchor machine, ((calls.resolve anchor).run machine).2 = machine
  elements : ∀ id machine, ((calls.elements id).run machine).2 = machine
  mount : ∀ id target anchor machine, Upright machine → Tends (· = id) machine (calls.mount id target anchor) machine
  unmount : ∀ id target machine, Upright machine → Tends (· = id) machine (calls.unmount id target) machine

section

variable (keeps : KeepsTrees calls) (upright : Upright machine)

include keeps upright

theorem off_readCell (cell : Nat) : Tends.off (readCell calls cell) machine :=
  .of_looked upright (looks_readCell keeps.answers keeps.looks upright.coherent upright.graph_observing cell)

theorem off_query (query : Query) : Tends.off (query.run calls) machine :=
  .of_looked upright (looks_run keeps.answers keeps.looks upright.coherent upright.graph_observing query)

theorem off_untracked_call (code : Code Memory) : Tends.off (discard (untrack (calls.call code []))) machine :=
  .discard (.observed upright (keeps.call code [] _ upright.unobserved))

omit keeps in
/-- A change of one effect that leaves it its body, or ends it. -/
theorem alters_modifyEffect (id : Nat) (f : Effect (Code Memory) (Task (Code Memory)) → Effect (Code Memory) (Task (Code Memory)))
    (kept : ∀ effect, machine.graph.content? id = some (.effect effect) →
      (f effect).disposed = false → effect.disposed = false ∧ (f effect).body = effect.body)
    (bodies : ∀ effect body, (f effect).body = some body → effect.body = some body) :
    Alters roots True machine { machine with graph := machine.graph.modifyEffect id f } :=
  .changed upright (.modifyEffect upright.fit id f kept bodies) (Coherent.modifyEffect upright.coherent id f)

theorem off_runCleanup (id : Nat) : Tends.off (runCleanup calls id) machine := by
  refine tends_graph?.2 ?_
  split
  next => exact .pure (.refl upright) _
  next code _ =>
    refine .modify (alters_modifyEffect upright id _ (fun _ _ awake => ⟨awake, rfl⟩) fun _ _ same => same) fun alters => ?_
    exact .idle alters (off_untracked_call keeps alters.upright code)

theorem off_settleCleanup (id : Nat) (cleanup : Option (Code Memory)) : Tends.off (settleCleanup calls id cleanup) machine := by
  refine tends_graph?.2 ?_
  split
  · cases cleanup with
    | none => exact .pure (.refl upright) _
    | some code => exact off_untracked_call keeps upright code
  · exact .modifyGraph (alters_modifyEffect upright id (fun effect => { effect with cleanup }) (fun _ _ awake => ⟨awake, rfl⟩) fun _ _ same => same)

/-- The body of an effect runs, and is back afterwards. -/
theorem tends_body {effect : Effect (Code Memory) (Task (Code Memory))} {body : Task (Code Memory)}
    (found : machine.graph.content? id = some (.effect effect)) (isBody : effect.body = some body) (inBatch : 0 < machine.graph.depth) :
    Tends (fun node => body.subject? = some node) machine (modifyGraph (·.modifyEffect id fun effect => { effect with body := none }) >>= fun _ =>
      (observedBy (some id) (holding body.parts (calls.perform body))).after fun _ machine =>
        { machine with graph := machine.graph.modifyEffect id fun effect => { effect with body := some body } }) machine := by
  have foundTaken : (machine.graph.modifyEffect id fun effect => { effect with body := none }).content? id =
      some (.effect { effect with body := none }) := content?_modifyEffect_self _ _ found
  have taken := upright.taken found
  have performed : Tends (fun node => body.subject? = some node)
      { machine with graph := machine.graph.modifyEffect id fun effect => { effect with body := none } } (observedBy (some id) (holding body.parts (calls.perform body)))
      { machine with graph := machine.graph.modifyEffect id fun effect => { effect with body := none } } := by
    have observing := taken.observe foundTaken
    exact .observed taken (.holding observing (keeps.perform body _ (upright.fit.bodies id effect body found isBody)
      (observing.carry rfl rfl) inBatch))
  exact Alters.regraph performed upright rfl rfl (fun inBatch => inBatch) (.restored upright.fit found isBody performed.kept)
    (Coherent.modifyEffect performed.upright.coherent id _) (exists_signal_modifyEffect _ id _)

/-- A run of an effect that has nothing to clean up is about the node that its body brings up to date. -/
theorem tends_runEffect {effect : Effect (Code Memory) (Task (Code Memory))} {body : Task (Code Memory)}
    (found : machine.graph.content? id = some (.effect effect)) (isBody : effect.body = some body) (clean : effect.cleanup = none)
    (inBatch : 0 < machine.graph.depth) : Tends (fun node => body.subject? = some node) machine (runEffect calls id) machine := by
  refine tends_graph?.2 ?_
  rw [machine.graph.effect?_eq_some.2 found]
  dsimp only
  split
  next => exact .pure (.refl upright) _
  next =>
    have foundReleased : (machine.graph.release id).content? id = some (.effect effect) := (content?_release ..).trans found
    refine .modify (.changed upright (.release upright.fit id) (Coherent.release upright.coherent found)) fun released => ?_
    rw [runCleanup, LawfulMonad.bind_assoc]
    refine tends_graph?.2 ?_
    dsimp only
    rw [(machine.graph.release id).effect?_eq_some.2 foundReleased, Option.bind_some, clean]
    dsimp only
    rw [pure_bind]
    refine tends_graph?.2 ?_
    dsimp only
    rw [(machine.graph.release id).effect?_eq_some.2 foundReleased, Option.bind_some, isBody]
    dsimp only
    rw [← LawfulMonad.bind_assoc]
    have ran := tends_body keeps released.upright foundReleased isBody (by simpa using inBatch)
    exact .bind (.call released ran fun root isSubject => .root isSubject) fun cleanup _ _ alters => .idle alters (off_settleCleanup keeps alters.upright id cleanup)

/-- A run of an effect may be about any node. -/
theorem tends_runEffect_any (inBatch : 0 < machine.graph.depth) : Tends (fun _ => True) machine (runEffect calls id) machine := by
  refine tends_graph?.2 ?_
  split
  next => exact .pure (.refl upright) _
  next effect isEffect =>
    split
    next => exact .pure (.refl upright) _
    next =>
      have found := machine.graph.effect?_eq_some.1 isEffect
      refine .modify (.changed upright (.release upright.fit id) (Coherent.release upright.coherent found)) fun released => ?_
      refine .bind (.idle released (off_runCleanup keeps released.upright id)) fun _ between _ alters => tends_graph?.2 ?_
      split
      next => exact .pure alters _
      next body isBody =>
        obtain ⟨later, foundLater, stored⟩ := Option.bind_eq_some_iff.1 isBody
        rw [← LawfulMonad.bind_assoc]
        have ran := tends_body keeps alters.upright (between.graph.effect?_eq_some.1 foundLater) stored (alters.kept.steady.depth ▸ inBatch)
        exact .bind (.call alters ran fun _ _ => .root trivial) fun cleanup _ _ alters => .idle alters (off_settleCleanup keeps alters.upright id cleanup)

/-- The effects that wait run, one after the other. Each may be about any node. -/
theorem passed_drain (bound : Nat) (inBatch : 0 < machine.graph.depth) :
    Passed (∃ value, ((drain calls bound).run machine).1 = .done value) machine ((drain calls bound).run machine).2 := by
  induction bound generalizing machine with
  | zero => exact .refl upright
  | succ bound ih =>
    rw [run_drain_succ]
    cases waiting : machine.graph.queue with
    | nil => exact .refl upright
    | cons id rest =>
      have fit := upright.fit
      have popped : Upright (machine.taking rest) :=
        ⟨⟨fit.symmetric, fit.observing, fit.bodies⟩, upright.coherent.of_vertices rfl, upright.observing, upright.formed, upright.known,
          upright.acyclic, upright.fair⟩
      show Passed (∃ value, (Step.bind (runEffect calls id) (fun _ => drain calls bound) (machine.taking rest)).1 = .done value) machine
        (Step.bind (runEffect calls id) (fun _ => drain calls bound) (machine.taking rest)).2
      rw [Step.bind]
      cases ran : (runEffect calls id).run (machine.taking rest) with
      | mk ending between =>
        rw [show runEffect calls id (machine.taking rest) = (ending, between) from ran]
        have alters := (tends_runEffect_any keeps popped inBatch).of_run ran
        obtain ⟨size, depth, observer, effects, created, signals⟩ := alters.kept.steady
        have first : Passed (∃ value, ending = .done value) machine between :=
          ⟨alters.upright, ⟨size, depth, observer, effects, created, signals⟩, ⟨alters.grows.size, alters.grows.blank, alters.grows.kids⟩, alters.spared⟩
        cases ending with
        | done value =>
          have whole : Passed True machine between := { first with spared := fun _ => first.spared ⟨value, rfl⟩ }
          exact whole.trans (ih alters.upright (depth.symm ▸ inBatch))
        | panicked cause => exact { first with spared := by simp }
        | exhausted => exact { first with spared := by simp }

theorem off_flush (bound : Nat) : Tends.off (flush calls bound) machine := by
  by_cases closed : machine.graph.depth = 0
  · have passed := passed_drain keeps upright.enterBatch bound (Nat.succ_pos _)
    have kept := Kept.flushed closed passed.upright.fit passed.steady ((drain calls bound).run { machine with graph := machine.graph.enterBatch }).1.isPanic
    show Alters _ (∃ value, ((flush calls bound).run machine).1 = .done value) machine ((flush calls bound).run machine).2
    rw [run_flush closed]
    exact ⟨kept, upright.regraph passed.upright rfl kept (passed.upright.coherent.of_vertices (vertices_leaveBatch ..))
        fun _ value found => ⟨value, (content?_leaveBatch ..).trans found⟩,
      ⟨passed.grows.size, passed.grows.blank, passed.grows.kids⟩, fun inBatch => absurd closed (by omega), passed.spared⟩
  · refine .seen (.refl upright) ?_
    show ((if 0 < machine.graph.depth then Pure.pure () else withBatch (drain calls bound) : Act Memory Unit).run machine).2 = machine
    rw [if_pos (by omega)]
    rfl

omit upright in
theorem tends_batch {step : Act Memory α} (upright : Upright machine)
    (tends : Tends roots { machine with graph := machine.graph.enterBatch } step { machine with graph := machine.graph.enterBatch }) :
    Tends roots machine (batch calls step) machine :=
  .bind (.batched upright tends) fun _ _ _ alters => .bind (.idle alters (keeps.flush _ alters.upright)) fun _ _ _ alters => .pure alters _

omit keeps in
theorem off_addToGraph {content : Content (Code Memory) (Task (Code Memory))}
    (meant : ∀ computed, content = .computed computed → computed.stale = true ∧ ∃ query, Code.query? computed.code = some query)
    (bodied : ∀ effect, content = .effect effect → ∃ body, effect.body = some body ∧ body.Formed) : Tends.off (addToGraph content) machine :=
  Alters.changed upright (.add upright.fit content bodied) (upright.coherent.add content meant)

theorem tends_newEffect {body : Task (Code Memory)} (formed : body.Formed) :
    Tends (fun node => body.subject? = some node) machine (newEffect calls body) machine := by
  have added : Tends.off (addToGraph (.effect ⟨some body, none, false⟩)) machine := by
    refine off_addToGraph upright nofun ?_
    rintro _ ⟨⟩
    exact ⟨body, rfl, formed⟩
  refine .bind added.weaken ?_
  rintro _ _ ⟨⟩ alters
  have found : (machine.graph.add (.effect ⟨some body, none, false⟩)).2.enterBatch.content? machine.graph.vertices.size =
      some (.effect ⟨some body, none, false⟩) := by
    show (machine.graph.add (.effect ⟨some body, none, false⟩)).2.content? machine.graph.vertices.size = _
    rw [content?_add, if_pos rfl]
  have ran := tends_runEffect keeps alters.upright.enterBatch found rfl rfl (Nat.succ_pos _)
  exact .bind (.call alters (tends_batch keeps alters.upright ran) fun _ isSubject => .root isSubject) fun _ _ _ alters => .pure alters _

theorem off_dispose (id : Nat) : Tends.off (dispose calls id) machine := by
  refine tends_graph?.2 ?_
  split
  next => exact .pure (.refl upright) _
  next effect found =>
    split
    next => exact .pure (.refl upright) _
    next live =>
      have awake : effect.disposed = false := by simpa using live
      replace found := machine.graph.effect?_eq_some.1 found
      have live : machine.graph.IsLive id := ⟨effect, found, awake⟩
      refine .modify (f := (·.retire id)) (.changed upright (.retire upright.fit live) (Coherent.retire upright.coherent found)) fun retired => ?_
      refine .bind (.idle retired (off_runCleanup keeps retired.upright id)) fun _ between ran alters => .modifyGraph ?_
      have gone := ((off_runCleanup keeps retired.upright id).of_done ran).kept.steady.isDisposed ⟨_, content?_retire_self found, rfl⟩
      have dropped : Alters (fun _ => False) True between _ := alters_modifyEffect alters.upright id (fun effect => { effect with body := none })
        (fun later foundLater awake => absurd ⟨later, foundLater, awake⟩ gone.not_isLive) fun _ _ never => absurd never.symm (Option.some_ne_none _)
      exact alters.trans dropped nofun

theorem off_updateSignal {cell : Nat} {held : Value} (signal : machine.graph.content? cell = some (.signal held)) (value : Value) :
    Tends.off (updateSignal calls cell value) machine := by
  have written : Alters (fun _ => False) True machine { machine with graph := machine.graph.write cell value } :=
    .changed upright (.write upright.fit signal value) (upright.coherent.write (machine.graph.lt_size_of_content? signal))
  show Tends (fun _ => False) machine calls.flush { machine with graph := machine.graph.write cell value }
  exact .idle written (keeps.flush _ written.upright)

theorem off_writeSignal {cell : Nat} {held : Value} (signal : machine.graph.content? cell = some (.signal held)) (value : Value) :
    Tends.off (writeSignal calls cell value) machine := by
  refine .seen_bind (.refl upright) rfl fun stored _ => ?_
  split
  next => exact .pure (.refl upright) _
  next => exact off_updateSignal keeps upright signal value

end

end ReactiveMarkup.Rendering
