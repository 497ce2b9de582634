import ReactiveMarkup.Proofs.SceneSteps

/-! What scripts do to cells and to effects of their own is beside the trees. -/

namespace ReactiveMarkup.Rendering

open ReactiveMarkup.Step ReactiveMarkup.Graph ReactiveMarkup.Machine

variable {Memory : Type} {odd more : Nat → Prop} {scene : Scene} {before middle after machine : Stage Memory} {id : Nat}

namespace Aside

/-- There is no member that a graph has no room for. -/
theorem unborn {graph later : Web Memory} (size : later.vertices.size ≤ graph.vertices.size) {id : Nat} (new : graph.vertices.size ≤ id)
    (task : Task (Code Memory)) : ¬ Drives later id task := by
  rintro ⟨effect, found, _⟩
  exact absurd (Nat.lt_of_lt_of_le (later.lt_size_of_content? found) size) (Nat.not_lt.2 new)

theorem of_evaluated (upright : Upright before) {query : Query} {value : Value} (evaluated : Evaluated Code.query? query before value after) :
    Aside odd before after := by
  have looked := Looked.of_evaluated evaluated
  have refreshed := evaluated.refreshed
  refine ⟨by rw [evaluated.frame], by rw [evaluated.frame], by rw [evaluated.frame], looked.kept upright.fit, evaluated.coherent, ⟨fun _ _ _ _ member => ?_, fun id _ live _ => .inr ?_⟩,
    fun id effect _ _ found _ => looked.content?_effect.2 found, fun id new task => unborn (Nat.le_of_eq refreshed.size) new task,
    fun _ _ _ _ found again body _ => by cases (looked.content?_effect.2 found).symm.trans again; exact body, ?_, ?_, ?_, fun id lingers => ?_⟩
  · rw [refreshed.queue]
    exact member
  · refine ⟨?_, fun cell _ value holds => refreshed.current? holds⟩
    by_cases observes : before.graph.observer = some id
    · exact refreshed.observed id observes
    · have settled : ¬ before.graph.Renewed after.graph id := by
        rintro ⟨computed, value, _, _, _, new⟩
        obtain ⟨effect, found, _⟩ := live
        cases new.symm.trans found
      rw [refreshed.sources id settled observes]
      exact fun _ member => member
  · rw [evaluated.frame]
    exact fun _ member => member
  · rw [evaluated.frame]
    exact fun _ member => .inl member
  · rintro id _ ⟨effect, found, awake⟩
    exact ⟨effect, looked.content?_effect.2 found, awake⟩
  · obtain ⟨record, found, gone, left⟩ := lingers
    by_cases observes : before.graph.observer = some id
    · exact .inr observes
    · have foundBefore := looked.content?_effect.1 found
      have settled : ¬ before.graph.Renewed after.graph id := by
        rintro ⟨computed, value, _, _, _, new⟩
        cases new.symm.trans found
      rw [refreshed.sources id settled observes, show after.world.effects = before.world.effects by rw [evaluated.frame]] at left
      exact .inl ⟨record, foundBefore, gone, left⟩

/-- A change of the graph by which no effect of a node comes to be. -/
theorem of_graph {graph : Web Memory} (kept : machine.graph.Kept Task.Formed graph) (coherent : graph.Coherent Code.query?)
    (attends : machine.graph.Attends odd graph) (spared : ∀ id effect, ¬ odd id → id ∉ machine.world.effects →
      machine.graph.content? id = some (.effect effect) → effect.disposed = false → graph.content? id = some (.effect effect))
    (hosted : ∀ id, machine.graph.vertices.size ≤ id → ∀ task, ¬ Drives graph id task)
    (bodied : ∀ id effect later task, machine.graph.content? id = some (.effect effect) → graph.content? id = some (.effect later) →
      later.body = some task → effect.body = some task)
    (lives : ∀ id, id ∉ machine.world.effects → machine.graph.IsLive id → graph.IsLive id)
    (lingers : ∀ id, Lingers { machine with graph } id → Lingers machine id) : Aside odd machine { machine with graph } :=
  ⟨rfl, rfl, rfl, kept, coherent, attends, spared, hosted, fun id effect later task found again body _ => bodied id effect later task found again body,
    fun _ member => member, fun _ member => .inl member, lives, fun id lingering => .inl (lingers id lingering)⟩

theorem write (upright : Upright machine) {cell : Nat} {held : Value} (signal : machine.graph.content? cell = some (.signal held)) (value : Value) :
    Aside odd machine { machine with graph := machine.graph.write cell value } := by
  have symmetric := upright.coherent.symmetric
  refine of_graph (.write upright.fit signal value) (upright.coherent.write (machine.graph.lt_size_of_content? signal)) (.write symmetric cell value)
    (fun id effect _ _ found _ => (effect_write symmetric signal value).2 found) (fun id new task => ?_) (fun id effect later task found again body => ?_)
    (fun id _ ⟨effect, found, awake⟩ => ⟨effect, (effect_write symmetric signal value).2 found, awake⟩) fun id ⟨record, found, gone, left⟩ => ?_
  · exact unborn (Nat.le_of_eq (size_write symmetric cell value)) new task
  · cases ((effect_write symmetric signal value).2 found).symm.trans again
    exact body
  · refine ⟨record, (effect_write symmetric signal value).1 found, gone, left.imp_left fun ⟨apart, sources⟩ => ⟨apart, ?_⟩⟩
    obtain same | ⟨_, none⟩ := (notified_write symmetric cell value).sources id
    · rw [sources_setSignal] at same
      exact same ▸ sources
    · exact absurd none sources

/-- A new member that is not an effect of a node. -/
theorem add (upright : Upright machine) {content : Content (Code Memory) (Task (Code Memory))}
    (meant : ∀ computed, content = .computed computed → computed.stale = true ∧ ∃ query, Code.query? computed.code = some query)
    (bodied : ∀ effect, content = .effect effect → ∃ code, effect.body = some (.host code)) :
    Aside odd machine { machine with graph := (machine.graph.add content).2 } := by
  have old {id : Nat} {effect : Effect (Code Memory) (Task (Code Memory))} (found : machine.graph.content? id = some (.effect effect)) :
      (machine.graph.add content).2.content? id = some (.effect effect) := by
    have inside := machine.graph.lt_size_of_content? found
    rw [content?_add, if_neg (Nat.ne_of_lt inside), found]
  refine of_graph (.add upright.fit content fun effect isEffect => ?_) (upright.coherent.add content meant)
    (.of_same (fun _ member => member) (fun id _ => by simp) fun cell value => current?_add content) (fun id effect _ _ found _ => old found)
    (fun id new task => ?_) (fun id effect later task found again body => ?_) (fun id _ ⟨effect, found, awake⟩ => ⟨effect, old found, awake⟩)
    fun id lingers => ?_
  · obtain ⟨code, body⟩ := bodied effect isEffect
    exact ⟨_, body, trivial⟩
  · rintro ⟨effect, found, _, body, renders⟩
    rw [content?_add] at found
    split at found
    · obtain ⟨code, hosted⟩ := bodied effect (Option.some.inj found)
      cases hosted.symm.trans body
      exact renders
    · exact absurd (machine.graph.lt_size_of_content? found) (Nat.not_lt.2 new)
  · cases (old found).symm.trans again
    exact body
  · obtain ⟨record, found, gone, left⟩ := lingers
    rw [content?_add] at found
    rw [sources_add] at left
    split at found
    · obtain rfl := ‹id = _›
      obtain ⟨_, sources⟩ | ⟨task, isTask, renders⟩ := left
      · simp [Graph.sources] at sources
      · obtain ⟨code, body⟩ := bodied record (Option.some.inj found)
        cases body.symm.trans isTask
        exact renders.elim
    · exact ⟨record, found, gone, left⟩

/-- A change of an effect of a script that keeps its body, or ends it. -/
theorem modifyEffect (upright : Upright machine) (exempt : odd id ∨ id ∈ machine.world.effects)
    (f : Effect (Code Memory) (Task (Code Memory)) → Effect (Code Memory) (Task (Code Memory)))
    (kept : ∀ effect, machine.graph.content? id = some (.effect effect) →
      (f effect).disposed = false → effect.disposed = false ∧ (f effect).body = effect.body)
    (bodies : ∀ effect body, (f effect).body = some body → effect.body = some body)
    (awake : ∀ effect, (f effect).disposed = effect.disposed) :
    Aside odd machine { machine with graph := machine.graph.modifyEffect id f } := by
  refine of_graph (.modifyEffect upright.fit id f kept bodies) (Coherent.modifyEffect upright.coherent id f)
    (.of_same (fun _ member => member) (fun other _ => by simp) fun cell value holds => ?_) (fun other effect usual apart found _ => ?_)
    (fun other new task => ?_) (fun other effect later task found again body => ?_) (fun other apart ⟨effect, found, live⟩ => ?_)
    fun other ⟨record, found, gone, left⟩ => ?_
  · exact ((Script.sameCells_modifyEffect machine.graph id f).current? cell).trans holds
  · have away : other ≠ id := by
      rintro rfl
      exact exempt.elim usual apart
    rw [content?_modifyEffect_of_ne _ _ away, found]
  · exact unborn (by simp) new task
  · by_cases here : other = id
    · subst here
      cases (content?_modifyEffect_self _ _ found).symm.trans again
      exact bodies effect task body
    · cases found.symm.trans ((content?_modifyEffect_of_ne _ _ here).symm.trans again)
      exact body
  · by_cases here : other = id
    · subst here
      exact ⟨_, content?_modifyEffect_self _ _ found, (awake effect).trans live⟩
    · exact ⟨effect, (content?_modifyEffect_of_ne _ _ here).trans found, live⟩
  · rw [sources_modifyEffect] at left
    by_cases here : other = id
    · subst here
      obtain ⟨earlier, was⟩ : ∃ earlier, machine.graph.content? other = some (.effect earlier) := by
        rw [content?_modifyEffect, if_pos rfl] at found
        split at found
        next earlier was => exact ⟨earlier, was⟩
        next other => exact absurd found (other record)
      cases (content?_modifyEffect_self _ _ was).symm.trans found
      exact ⟨earlier, was, (awake earlier).symm.trans gone, left.imp_right fun ⟨task, isTask, renders⟩ => ⟨task, bodies earlier task isTask, renders⟩⟩
    · exact ⟨record, (content?_modifyEffect_of_ne _ _ here).symm.trans found, gone, left⟩

theorem release (upright : Upright machine) (isOdd : odd id) {effect : Effect (Code Memory) (Task (Code Memory))}
    (found : machine.graph.content? id = some (.effect effect)) : Aside odd machine { machine with graph := machine.graph.release id } := by
  refine of_graph (.release upright.fit id) (Coherent.release upright.coherent found) (.of_same ?_ (fun other usual => ?_) fun cell value holds => ?_)
    (fun other effect _ _ found _ => (content?_release ..).trans found) (fun other new task => unborn (by simp [size_release]) new task)
    (fun other effect later task found again body => ?_) (fun other _ ⟨effect, found, awake⟩ => ⟨effect, (content?_release ..).trans found, awake⟩)
    fun other ⟨record, found, gone, left⟩ => ?_
  · rw [queue_release]
    exact fun _ member => member
  · have away : other ≠ id := by
      rintro rfl
      exact usual isOdd
    rw [sources_release, if_neg away]
    exact fun _ member => member
  · exact (current?_congr (content?_release ..)).trans holds
  · cases found.symm.trans ((content?_release ..).symm.trans again)
    exact body
  · refine ⟨record, (content?_release ..).symm.trans found, gone, left.imp_left fun ⟨apart, sources⟩ => ⟨apart, fun none => sources ?_⟩⟩
    show (machine.graph.release id).sources other = []
    rw [sources_release]
    split
    · rfl
    · exact none

theorem retire (upright : Upright machine) (live : machine.graph.IsLive id) (isScripts : id ∈ machine.world.effects) (bare : ∀ task, ¬ Drives machine.graph id task) :
    Aside odd machine { machine with graph := machine.graph.retire id } := by
  have isLive := live
  obtain ⟨effect, found, awake⟩ := live
  have dead : ¬ (machine.graph.retire id).IsLive id := by
    rintro ⟨later, foundLater, awake⟩
    cases (content?_retire_self found).symm.trans foundLater
    cases awake
  refine of_graph (.retire upright.fit isLive) (Coherent.retire upright.coherent found) ⟨fun other _ live _ member => ?_, fun other _ live _ => .inr ⟨?_, ?_⟩⟩
    (fun other effect _ apart found _ => ?_) (fun other new task => unborn ?_ new task) (fun other effect later task foundOther again body => ?_)
    (fun other apart spared => ?_) fun other lingers => ?_
  · rw [queue_retire]
    exact List.mem_filter.2 ⟨member, by simpa using fun same : other = id => dead (same ▸ live)⟩
  · have away : other ≠ id := by
      rintro rfl
      exact dead live
    rw [sources_retire, if_neg away]
    exact fun _ member => member
  · intro cell _ value holds
    by_cases here : cell = id
    · subst here
      simp [Graph.current?, found] at holds
    · exact (current?_congr (content?_retire_of_ne here)).trans holds
  · have away : other ≠ id := by
      rintro rfl
      exact apart isScripts
    rw [content?_retire_of_ne away, found]
  · simp [Graph.retire, size_release, dequeue]
  · by_cases here : other = id
    · subst here
      cases (content?_retire_self foundOther).symm.trans again
      exact body
    · cases foundOther.symm.trans ((content?_retire_of_ne here).symm.trans again)
      exact body
  · have away : other ≠ id := by
      rintro rfl
      exact apart isScripts
    obtain ⟨effect, found, awake⟩ := spared
    exact ⟨effect, (content?_retire_of_ne away).trans found, awake⟩
  · obtain ⟨record, foundOther, gone, left⟩ := lingers
    have away : other ≠ id := by
      rintro rfl
      cases (content?_retire_self found).symm.trans foundOther
      obtain ⟨apart, _⟩ | ⟨task, isTask, renders⟩ := left
      · exact apart isScripts
      · exact bare task ⟨effect, found, awake, isTask, renders⟩
    refine ⟨record, (content?_retire_of_ne away).symm.trans foundOther, gone, left.imp_left (.imp_right fun sources none => sources ?_)⟩
    show (machine.graph.retire id).sources other = []
    rw [sources_retire, if_neg away]
    exact none

/-- What is done while nothing observes. -/
theorem unobserved (upright : Upright machine) (aside : Aside odd { machine with graph := { machine.graph with observer := none } } after) :
    Aside odd machine { after with graph := { after.graph with observer := machine.graph.observer } } :=
  ⟨aside.nodes, aside.document, aside.roots, aside.kept.observed upright.fit, aside.coherent.of_vertices rfl, ⟨aside.attends.waits, aside.attends.minds⟩,
    aside.spared, aside.hosted, aside.bodied, aside.effects, aside.added, aside.lives, fun id lingers => .inl ((aside.lingers id lingers).resolve_right nofun)⟩

theorem batched (aside : Aside odd { machine with graph := machine.graph.enterBatch } after) :
    Aside odd machine { after with graph := after.graph.leaveBatch false } := by
  have kept := aside.kept.batched false
  rw [leaveBatch_false] at kept ⊢
  exact ⟨aside.nodes, aside.document, aside.roots, kept, aside.coherent.of_vertices rfl, ⟨aside.attends.waits, aside.attends.minds⟩,
    aside.spared, aside.hosted, aside.bodied, aside.effects, aside.added, aside.lives, aside.lingers⟩

/-- What is held is no matter, nor are functions and the memory of scripts. -/
theorem carry {first last : Stage Memory} (aside : Aside odd before after) (nodes : first.nodes = before.nodes) (nodesLast : last.nodes = after.nodes)
    (document : first.document = before.document) (documentLast : last.document = after.document)
    (graph : first.graph = before.graph) (graphLast : last.graph = after.graph) (roots : first.world.roots = before.world.roots)
    (rootsLast : last.world.roots = after.world.roots) (effects : first.world.effects = before.world.effects)
    (effectsLast : last.world.effects = after.world.effects) : Aside odd first last := by
  obtain ⟨sameNodes, sameDocument, sameRoots, kept, coherent, attends, spared, hosted, bodied, more, added, lives, lingers⟩ := aside
  refine ⟨?_, ?_, ?_, ?_, ?_, ?_, ?_, ?_, ?_, ?_, ?_, ?_, ?_⟩
  · rw [nodesLast, sameNodes, nodes]
  · rw [documentLast, sameDocument, document]
  · rw [rootsLast, sameRoots, roots]
  · rwa [graph, graphLast]
  · rwa [graphLast]
  · rwa [graph, graphLast]
  · rwa [graph, graphLast, effectsLast]
  · rwa [graph, graphLast]
  · rwa [graph, graphLast]
  · rwa [effects, effectsLast]
  · rwa [graph, graphLast, effects, effectsLast]
  · rwa [graph, graphLast, effectsLast]
  · simp only [Lingers] at lingers ⊢
    rwa [graph, graphLast, effects, effectsLast]

/-- A script comes to own an effect that was not there before. -/
theorem adopt (aside : Aside odd before after) {effect : Nat} (new : before.graph.vertices.size ≤ effect) (there : effect < after.graph.vertices.size) :
    Aside odd before { after with world := { after.world with effects := effect :: after.world.effects } } := by
  refine ⟨aside.nodes, aside.document, aside.roots, aside.kept, aside.coherent, aside.attends, fun id found usual apart => aside.spared id found usual fun member => ?_,
    aside.hosted, aside.bodied, fun id member => List.mem_cons_of_mem _ (aside.effects member), fun id member => ?_,
    fun id apart => aside.lives id fun member => apart (List.mem_cons_of_mem _ member),
    fun id lingers => aside.lingers id (lingers.disown fun _ => List.mem_cons_of_mem _)⟩
  · exact apart (List.mem_cons_of_mem _ member)
  · obtain rfl | member := List.mem_cons.1 member
    · exact .inr ⟨new, there⟩
    · exact aside.added id member

/-- The body of an effect of a script runs. -/
theorem body (upright : Upright machine) {effect : Effect (Code Memory) (Task (Code Memory))} {code : Code Memory} (isOdd : odd id)
    (found : machine.graph.content? id = some (.effect effect)) (isBody : effect.body = some (.host code)) (awake : id ∉ machine.world.effects → effect.disposed = false)
    (aside : Aside (fun _ => False) { machine with graph := { machine.graph.modifyEffect id fun effect => { effect with body := none } with observer := some id } } after) :
    Aside odd machine { after with
      graph := { after.graph with observer := machine.graph.observer }.modifyEffect id fun effect => { effect with body := some (.host code) } } := by
  have foundTaken : (machine.graph.modifyEffect id fun effect => { effect with body := none }).content? id = some (.effect { effect with body := none }) :=
    content?_modifyEffect_self _ _ found
  have fitTaken : (machine.graph.modifyEffect id fun effect => { effect with body := none }).Fit Task.Formed :=
    upright.fit.modifyEffect id (fun effect => { effect with body := none }) fun _ _ never => absurd never.symm (Option.some_ne_none _)
  have keptTaken : (machine.graph.modifyEffect id fun effect => { effect with body := none }).Kept Task.Formed { after.graph with observer := machine.graph.observer } :=
    Kept.observed fitTaken aside.kept
  have kept := Kept.restored upright.fit found isBody keptTaken
  have away {other : Nat} (usual : ¬ odd other) : other ≠ id := fun same => usual (same ▸ isOdd)
  have contentBack {other : Nat} (apart : other ≠ id) : ({ after.graph with observer := machine.graph.observer }.modifyEffect id fun effect =>
      { effect with body := some (.host code) }).content? other = after.graph.content? other := content?_modifyEffect_of_ne _ _ apart
  have contentTaken {other : Nat} (apart : other ≠ id) : (machine.graph.modifyEffect id fun effect => { effect with body := none }).content? other =
      machine.graph.content? other := content?_modifyEffect_of_ne _ _ apart
  have live {other : Nat} (usual : ¬ odd other) (live : ({ after.graph with observer := machine.graph.observer }.modifyEffect id fun effect =>
      { effect with body := some (.host code) }).IsLive other) : after.graph.IsLive other := by
    obtain ⟨later, foundLater, awake⟩ := live
    exact ⟨later, (contentBack (away usual)).symm.trans foundLater, awake⟩
  have size : (machine.graph.modifyEffect id fun effect => { effect with body := none }).vertices.size = machine.graph.vertices.size := size_modifyEffect ..
  have coherent : Coherent Code.query? { after.graph with observer := machine.graph.observer } := aside.coherent.of_vertices rfl
  have lives (other : Nat) (apart : other ∉ after.world.effects) (was : machine.graph.IsLive other) : ({ after.graph with observer := machine.graph.observer }.modifyEffect id fun effect =>
      { effect with body := some (.host code) }).IsLive other := by
    obtain ⟨record, isEffect, awake⟩ := was
    by_cases here : other = id
    · subst here
      cases found.symm.trans isEffect
      obtain ⟨later, foundLater, awakeLater⟩ := aside.lives other apart ⟨_, foundTaken, awake⟩
      exact ⟨{ later with body := some (.host code) }, content?_modifyEffect_self _ _ foundLater, awakeLater⟩
    · obtain ⟨later, foundLater, awakeLater⟩ := aside.lives other apart ⟨record, (contentTaken here).trans isEffect, awake⟩
      exact ⟨later, (contentBack here).trans foundLater, awakeLater⟩
  refine ⟨aside.nodes, aside.document, aside.roots, kept, Coherent.modifyEffect coherent id _,
    ⟨fun other usual isLive old member => ?_, fun other usual isLive old => ?_⟩, fun other later usual apart foundOther awake => ?_, fun other new task drives => ?_,
    fun other earlier later task foundOther again isLater renders => ?_, aside.effects, fun other member => (aside.added other member).imp_right fun ⟨new, there⟩ => ⟨size ▸ new, ?_⟩,
    lives, fun other lingering => .inl ?_⟩
  · exact aside.attends.waits other (fun never => never) (live usual isLive) (size.symm ▸ old) member
  · obtain waits | ⟨sources, same⟩ := aside.attends.minds other (fun never => never) (live usual isLive) (size.symm ▸ old)
    · exact .inl waits
    · refine .inr ⟨fun source member => ?_, fun cell member value holds => ?_⟩
      · have inside := sources (show source ∈ _ by rw [show Graph.sources { machine.graph.modifyEffect id _ with observer := some id } other =
          (machine.graph.modifyEffect id _).sources other from rfl, sources_modifyEffect]; exact member)
        rw [sources_modifyEffect]
        exact inside
      · have holdsTaken : Graph.current? { machine.graph.modifyEffect id (fun effect => { effect with body := none }) with observer := some id } cell = some value :=
          ((Script.sameCells_modifyEffect machine.graph id _).current? cell).trans holds
        have memberTaken : cell ∈ Graph.sources { machine.graph.modifyEffect id (fun effect => { effect with body := none }) with observer := some id } other := by
          rw [show Graph.sources { machine.graph.modifyEffect id _ with observer := some id } other =
            (machine.graph.modifyEffect id _).sources other from rfl, sources_modifyEffect]
          exact member
        exact ((Script.sameCells_modifyEffect _ id _).current? cell).trans (same cell memberTaken value holdsTaken)
  · rw [contentBack (away usual)]
    exact aside.spared other later (fun never => never) apart ((contentTaken (away usual)).trans foundOther) awake
  · have apart : other ≠ id := by
      rintro rfl
      exact absurd (machine.graph.lt_size_of_content? found) (Nat.not_lt.2 new)
    obtain ⟨later, foundLater, rest⟩ := drives
    exact aside.hosted other (size.symm ▸ new) task ⟨later, (contentBack apart).symm.trans foundLater, rest⟩
  · by_cases apart : other = id
    · subst apart
      obtain ⟨between, foundBetween, _⟩ := aside.kept.steady.effects other _ foundTaken
      have restored : ({ after.graph with observer := machine.graph.observer }.modifyEffect other fun effect => { effect with body := some (.host code) }).content? other =
        some (.effect { between with body := some (.host code) }) := content?_modifyEffect_self _ _ foundBetween
      cases restored.symm.trans again
      cases isLater
      exact renders.elim
    · exact aside.bodied other earlier later task ((contentTaken apart).trans foundOther) ((contentBack apart).symm.trans again) isLater renders
  · have apart : other ≠ id := by
      rintro rfl
      obtain ⟨between, foundBetween, _⟩ := aside.kept.steady.effects other _ foundTaken
      have restored : ({ after.graph with observer := machine.graph.observer }.modifyEffect other fun effect => { effect with body := some (.host code) }).content? other =
        some (.effect { between with body := some (.host code) }) := content?_modifyEffect_self _ _ foundBetween
      obtain ⟨record, isEffect, gone, ⟨away, _⟩ | ⟨task, isTask, renders⟩⟩ := id lingering
      · exact lingering.not_isLive (lives other away ⟨effect, found, awake fun member => away (aside.effects member)⟩)
      · cases restored.symm.trans isEffect
        cases isTask
        exact renders
    obtain ⟨record, isEffect, gone, left⟩ := lingering
    have same : (Graph.modifyEffect { after.graph with observer := machine.graph.observer } id fun effect => { effect with body := some (.host code) }).sources other =
      after.graph.sources other := sources_modifyEffect ..
    rw [same] at left
    obtain ⟨earlier, was, goneToo, leftToo⟩ := (aside.lingers other ⟨record, (contentBack apart).symm.trans isEffect, gone, left⟩).resolve_right
      fun observes => apart (Option.some.inj observes).symm
    have sameTaken : (machine.graph.modifyEffect id fun effect => { effect with body := none }).sources other = machine.graph.sources other := sources_modifyEffect ..
    exact ⟨earlier, (contentTaken apart).symm.trans was, goneToo, sameTaken ▸ leftToo⟩
  · show _ < (Graph.modifyEffect _ _ _).vertices.size
    rw [size_modifyEffect]
    exact there

end Aside

end ReactiveMarkup.Rendering
