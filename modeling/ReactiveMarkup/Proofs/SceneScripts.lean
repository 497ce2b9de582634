import ReactiveMarkup.Proofs.SceneCells

/-! Scripts in a scene. In a batch they are beside the trees; outside of one they set off effects of nodes, which keep
the trees tidy and leave alone what the steps under way have set up. -/

namespace ReactiveMarkup

namespace Graph

variable {Code Body : Type} {odd : Nat → Prop} {before after : Graph Code Body}

theorem Attends.of_vertices {first last : Graph Code Body} (attends : Attends odd before after) (vertices : first.vertices = before.vertices)
    (queue : first.queue = before.queue) (verticesLast : last.vertices = after.vertices) (queueLast : last.queue = after.queue) : Attends odd first last := by
  cases first
  cases last
  cases vertices
  cases queue
  cases verticesLast
  cases queueLast
  exact ⟨attends.waits, attends.minds⟩

end Graph

namespace Rendering

open ReactiveMarkup.Step ReactiveMarkup.Graph ReactiveMarkup.Machine Tidy Stocked

variable {Memory : Type} {α β : Type} {odd : Nat → Prop} {about more : NodeId → Prop} {scene wide : Scene} {before middle after machine first last : Stage Memory}
  {id : Nat} {task : Task (Code Memory)} {calls : Calls (Host.rendering Memory)}

/-- Two machines that differ in nothing that trees are about. -/
structure Alike (first second : Stage Memory) : Prop where
  nodes : second.nodes = first.nodes
  document : second.document = first.document
  vertices : second.graph.vertices = first.graph.vertices
  queue : second.graph.queue = first.graph.queue
  roots : second.world.roots = first.world.roots
  effects : second.world.effects = first.world.effects

namespace Alike

variable (alike : Alike first last)

include alike

theorem content? (effect : Nat) : last.graph.content? effect = first.graph.content? effect := by rw [Graph.content?, Graph.content?, alike.vertices]

theorem isLive (effect : Nat) : last.graph.IsLive effect ↔ first.graph.IsLive effect := by simp only [IsLive, alike.content?]

theorem drives (effect : Nat) (task : Task (Code Memory)) : Drives last.graph effect task ↔ Drives first.graph effect task := by
  simp only [Drives, alike.content?]

theorem lingers (effect : Nat) : Lingers last effect ↔ Lingers first effect := by
  simp only [Lingers, alike.content?, alike.effects, Graph.sources, alike.vertices]

theorem tidy (tidy : Tidy scene first) (upright : Upright last) : Tidy scene last := by
  have attends : first.graph.Attends (fun _ => False) last.graph := (Attends.refl first.graph).of_vertices rfl rfl alike.vertices alike.queue
  refine tidy.regraph upright alike.nodes alike.document alike.roots (fun effect task => (alike.drives effect task).1)
    (fun effect task _ drives _ _ => (alike.drives effect task).2 drives) attends
    (fun _ _ never => never.elim) (fun effect stock => ?_) fun effect member => ?_
  · rw [alike.effects, alike.content?]
    exact tidy.stocked.tame effect stock
  · rw [alike.effects] at member
    rw [alike.vertices]
    simp only [alike.drives]
    exact tidy.stocked.scripts effect member

end Alike

/-- Nothing but the graph, the nodes, the document and what scripts own matters. -/
theorem Tidy.carry (tidy : Tidy scene first) (graph : last.graph = first.graph) (nodes : last.nodes = first.nodes) (document : last.document = first.document)
    (roots : last.world.roots = first.world.roots) (effects : last.world.effects = first.world.effects) : Tidy scene last :=
  Alike.tidy ⟨nodes, document, by rw [graph], by rw [graph], roots, effects⟩ tidy (tidy.upright.carry graph nodes)

/-- What is left to steps around one is the same whatever is done to the graph. -/
theorem Frame.regraph (frame : Frame scene about before after) (nodes : first.nodes = before.nodes) (nodesLast : last.nodes = after.nodes)
    (live : ∀ effect, first.graph.IsLive effect → before.graph.IsLive effect) (liveLast : ∀ effect, after.graph.IsLive effect → last.graph.IsLive effect)
    (size : first.graph.vertices.size = before.graph.vertices.size) (roots : first.world.roots = before.world.roots) (rootsLast : last.world.roots = after.world.roots)
    (effects : first.world.effects = before.world.effects) (effectsLast : last.world.effects = after.world.effects)
    (steady : first.graph.Steady last.graph) (lingers : ∀ effect, Lingers last effect → Lingers first effect ∨ first.graph.observer = some effect) : Frame scene about first last := by
  obtain ⟨_, ⟨grown, blank, kids⟩, busy, still, loose, spared, sameRoots, sameEffects, stock, hung, _⟩ := frame
  have sameKids := kids_congr nodes
  refine ⟨steady, ⟨?_, ?_, ?_⟩, ?_, ?_, ?_, fun effect needed isLive => ?_, ?_, ?_, ?_, fun id target anchor isBusy hangs => ?_, lingers⟩
  · rwa [nodes, nodesLast]
  · rwa [nodes, nodesLast]
  · rwa [sameKids, kids_congr nodesLast, nodes]
  · rwa [nodes, nodesLast]
  · rwa [nodes, nodesLast]
  · simp only [on_congr nodes, on_congr nodesLast]
    rwa [sameKids, nodes]
  · simp only [Needed, keeps_congr nodes] at needed
    exact liveLast effect (spared effect needed (live effect isLive))
  · rwa [roots, rootsLast]
  · rwa [effects, effectsLast, size]
  · simp only [keeps_congr nodes, keeps_congr nodesLast]
    rwa [size]
  · exact (hung id target anchor isBusy (hangs.congr nodes.symm rfl fun _ _ _ guarded => guarded)).congr nodesLast rfl fun _ _ _ guarded => guarded

theorem Frame.refl (machine : Stage Memory) : Frame scene about machine machine :=
  ⟨.refl _, .refl machine, fun _ _ => rfl, fun _ _ => rfl, fun _ _ _ _ => Iff.rfl, fun _ _ live => live, rfl,
    ⟨fun _ member => member, fun _ member => .inl member⟩, fun id _ keeps => .inr (.inl ⟨id, keeps⟩), fun _ _ _ _ hangs => hangs, fun _ => .inl⟩

/-- After a step its observer is the one before it. -/
theorem Upright.restored (upright : Upright machine) (later : Upright after) (steady : machine.graph.Steady { after.graph with observer := machine.graph.observer }) :
    Upright { after with graph := { after.graph with observer := machine.graph.observer } } := by
  refine ⟨later.fit.observe fun observer observed => Nat.lt_of_lt_of_le (upright.fit.observing observer observed) steady.size, later.coherent.of_vertices rfl,
    fun observer observed => ?_, later.formed, later.known, later.acyclic, later.fair⟩
  obtain ⟨effect, found⟩ := upright.observing observer observed
  obtain ⟨again, foundLater, _⟩ := steady.effects observer effect found
  exact ⟨again, foundLater⟩

/-- What a step under way has left behind, for a scene of its own and for the one in which it has begun. -/
structure Underway (inner scene : Scene) (about : NodeId → Prop) (before after : Stage Memory) : Prop where
  tidy : Tidy inner after
  frame : Frame scene about before after
  attends : 0 < before.graph.depth → before.graph.Attends (fun _ => False) after.graph
  idle : before.graph.depth = 0 → before.graph.queue = [] → after.graph.queue = []

/-- What a step in a scene leaves behind. -/
abbrev Yields (scene : Scene) : (NodeId → Prop) → Stage Memory → Stage Memory → Prop := Underway scene scene

namespace Underway

variable {inner later : Scene}

theorem refl (tidy : Tidy inner machine) : Underway inner scene about machine machine :=
  ⟨tidy, .refl machine, fun _ => .refl _, fun _ empty => empty⟩

theorem depth (underway : Underway inner scene about before after) : after.graph.depth = before.graph.depth := underway.frame.steady.depth

/-- A step goes on with one that is left more. -/
theorem join (first : Underway inner scene about before middle) (second : Underway later wide more middle after)
    (opened : ∀ id, scene.opened id → wide.opened id) (still : ∀ id, scene.still id → wide.still id)
    (pending : ∀ disposable, scene.pending disposable → wide.pending disposable)
    (named : ∀ id, more id → id < before.nodes.size → about id ∨ ∃ parent, id ∈ kids before parent ∧ ¬ scene.still parent)
    (stocked : ∀ effect, wide.pending (.effect effect) →
      scene.pending (.effect effect) ∨ (∃ other, Keeps before other (.effect effect)) ∨ before.graph.vertices.size ≤ effect)
    (stead : wide.stead = scene.stead) (wards : ∀ holder kid key, scene.wards holder kid key → wide.wards holder kid key)
    (back : ∀ id target anchor, scene.Busy id → Hangs wide after id target anchor → Hangs scene after id target anchor) :
    Underway later scene about before after := by
  refine ⟨second.tidy, first.frame.join second.frame opened still pending named stocked stead wards back, fun inBatch => ?_, fun closed empty => ?_⟩
  · exact (first.attends inBatch).trans (second.attends (first.depth ▸ inBatch)) first.frame.steady second.frame.steady fun _ => False.elim
  · exact second.idle (first.depth.trans closed) (first.idle closed empty)

theorem trans (first : Underway inner scene about before middle) (second : Underway later scene more middle after)
    (named : ∀ id, more id → id < before.nodes.size → about id ∨ ∃ parent, id ∈ kids before parent ∧ ¬ scene.still parent) :
    Underway later scene about before after :=
  first.join second (fun _ opened => opened) (fun _ still => still) (fun _ pending => pending) named (fun _ => .inl) rfl (fun _ _ _ guarded => guarded)
    fun _ _ _ _ hangs => hangs

theorem alike (underway : Underway inner scene about before after) (alikeFirst : Alike before first) (alikeLast : Alike after last)
    (steady : first.graph.Steady last.graph) (upright : Upright last) (depth : first.graph.depth = before.graph.depth)
    (observer : before.graph.observer = none ∨ before.graph.observer = first.graph.observer) :
    Underway inner scene about first last := by
  refine ⟨alikeLast.tidy underway.tidy upright, underway.frame.regraph alikeFirst.nodes alikeLast.nodes (fun effect => (alikeFirst.isLive effect).1)
    (fun effect => (alikeLast.isLive effect).2) (by rw [alikeFirst.vertices]) alikeFirst.roots alikeLast.roots alikeFirst.effects alikeLast.effects steady fun effect lingers => ?_, fun inBatch => ?_, fun closed empty => ?_⟩
  · obtain lingered | observes := underway.frame.lingers effect ((alikeLast.lingers effect).1 lingers)
    · exact .inl ((alikeFirst.lingers effect).2 lingered)
    · obtain none | same := observer
      · cases none.symm.trans observes
      · exact .inr (same ▸ observes)
  · exact (underway.attends (depth ▸ inBatch)).of_vertices alikeFirst.vertices alikeFirst.queue alikeLast.vertices alikeLast.queue
  · rw [alikeFirst.queue] at empty
    rw [alikeLast.queue]
    exact underway.idle (depth ▸ closed) empty

/-- What is done while nothing observes. -/
theorem unobserved (upright : Upright machine) (underway : Underway inner scene about { machine with graph := { machine.graph with observer := none } } after) :
    Underway inner scene about machine { after with graph := { after.graph with observer := machine.graph.observer } } := by
  obtain ⟨size, depth, _, effects, created, signals⟩ := underway.frame.steady
  have steady : machine.graph.Steady { after.graph with observer := machine.graph.observer } := ⟨size, depth, rfl, effects, created, signals⟩
  exact underway.alike ⟨rfl, rfl, rfl, rfl, rfl, rfl⟩ ⟨rfl, rfl, rfl, rfl, rfl, rfl⟩ steady (upright.restored underway.tidy.upright steady) rfl (.inl rfl)

/-- Neither what is held on to nor functions are any matter. -/
theorem carry (underway : Underway inner scene about before after) (graph : first.graph = before.graph) (nodes : first.nodes = before.nodes)
    (document : first.document = before.document) (documentLast : last.document = after.document) (world : first.world = before.world) (graphLast : last.graph = after.graph) (nodesLast : last.nodes = after.nodes) (worldLast : last.world = after.world) :
    Underway inner scene about first last := by
  refine underway.alike ⟨nodes, document, by rw [graph], by rw [graph], by rw [world], by rw [world]⟩
    ⟨nodesLast, documentLast, by rw [graphLast], by rw [graphLast], by rw [worldLast], by rw [worldLast]⟩ ?_ (underway.tidy.upright.carry graphLast nodesLast) (by rw [graph]) (.inr (by rw [graph]))
  rw [graph, graphLast]
  exact underway.frame.steady

end Underway

/-- What code leaves behind. In a batch it is beside the trees. -/
structure Strays (scene : Scene) (before after : Stage Memory) : Prop extends Underway scene scene (fun _ => False) before after where
  aside : 0 < before.graph.depth → Aside.plain before after

namespace Strays

theorem refl (tidy : Tidy scene machine) : Strays scene machine machine := ⟨.refl tidy, fun _ => .refl tidy.upright⟩

theorem trans (first : Strays scene before middle) (second : Strays scene middle after) : Strays scene before after :=
  ⟨first.toUnderway.trans second.toUnderway fun _ never => never.elim,
    fun inBatch => (first.aside inBatch).trans (second.aside (first.depth ▸ inBatch)) fun _ => False.elim⟩

theorem of_aside (tidy : Tidy scene before) (aside : Aside.plain before after) (quiet : before.graph.depth = 0 → before.graph.queue = [] → after.graph.queue = []) :
    Strays scene before after :=
  ⟨⟨tidy.beside aside fun _ => False.elim, tidy.frame_aside aside fun _ => False.elim, fun _ => aside.attends, quiet⟩, fun _ => aside⟩

/-- Nothing that trees are about is changed. -/
theorem carry (strays : Strays scene before after) (graph : last.graph = after.graph) (nodes : last.nodes = after.nodes) (document : last.document = after.document)
    (roots : last.world.roots = after.world.roots) (effects : last.world.effects = after.world.effects) : Strays scene before last := by
  have aside : Aside.plain after last := (Aside.refl strays.tidy.upright).carry rfl nodes rfl document rfl graph rfl roots rfl effects
  exact strays.trans (.of_aside strays.tidy aside fun _ empty => graph ▸ empty)

theorem unobserved (upright : Upright machine) (strays : Strays scene { machine with graph := { machine.graph with observer := none } } after) :
    Strays scene machine { after with graph := { after.graph with observer := machine.graph.observer } } :=
  ⟨Underway.unobserved upright strays.toUnderway, fun inBatch => .unobserved upright (strays.aside inBatch)⟩

end Strays

/-- A node that has just been made: nothing is above it, and it is neither mounted nor a root. -/
structure Spare (scene : Scene) (machine : Stage Memory) (id : NodeId) : Prop where
  unclaimed : ∀ parent, id ∉ kids machine parent
  off : ¬ On machine id
  rootless : id ∉ machine.world.roots
  idle : ¬ scene.opened id
  wardless : ∀ stead, scene.stead = some stead → ∀ holder key, ¬ scene.wards holder id key

/-- What making a tree leaves behind. -/
structure Brings (scene : Scene) (before after : Stage Memory) (child : NodeId) : Prop where
  yields : Yields scene (fun _ => False) before after
  fresh : Fresh before after child
  spare : Spare scene after child

/-- What is below a node rests. -/
def Alone (scene : Scene) (machine : Stage Memory) (id : NodeId) : Prop := ∀ kid ∈ kids machine id, Clear scene machine kid

/-- What the node that the body of an effect brings up to date is like when the body begins. -/
def Primed (scene : Scene) (machine : Stage Memory) : Task (Code Memory) → Prop
  | .branches id _ _ =>
    ∃ node, machine.nodes[id]? = some (.conditional node) ∧ node.mounted = true ∧ Presents machine node ∧
      (node.selected = none ∧ node.active = none ∨ ∃ selection, node.selected = some selection ∧ node.active = choice node selection) ∧ Alone scene machine id
  | .items id _ => ∃ list, machine.nodes[id]? = some (.list list) ∧ (list.mounted = true ∨ scene.opened id) ∧ Lists machine list ∧ Alone scene machine id
  | .text id _ => ∃ node, machine.nodes[id]? = some (.text node) ∧ (node.handle.isSome = true ∨ scene.opened id)
  | .property _ _ _ | .classes _ _ | .host _ => True

/-- A scene while the body of an effect runs. -/
abbrev Scene.during (scene : Scene) (task : Task (Code Memory)) : Scene := scene.pausing fun id => task.subject? = some id

/-- The body of an effect of a node begins to run. -/
structure Begins (scene : Scene) (effect : Nat) (task : Task (Code Memory)) (machine : Stage Memory) : Prop where
  renders : task.Renders
  formed : task.Formed
  inBatch : 0 < machine.graph.depth
  observed : machine.graph.observer = some effect
  away : machine.graph.content? effect = some (.effect ⟨none, none, false⟩)
  assigned : Assigned scene machine effect task
  paused : ∀ subject, task.subject? = some subject → ¬ scene.still subject
  tidy : Tidy (scene.during task) machine
  primed : Primed scene machine task
  lodged : Lodged scene machine task

/-- What the body of an effect leaves behind. -/
structure Performed (scene : Scene) (effect : Nat) (task : Task (Code Memory)) (before after : Stage Memory) : Prop where
  tidy : Tidy (scene.during task) after
  frame : Frame scene (fun id => task.subject? = some id ∧ ¬ On before id) before after
  attends : before.graph.Attends (fun _ => False) after.graph
  live : after.graph.IsLive effect
  keeps : ∀ id, Keeps before id (.effect effect) → Keeps after id (.effect effect)
  governs : Governs scene after effect task
  lodged : Lodged scene after task

/-- Calls that keep trees tidy. -/
structure KeepsScenes (calls : Calls (Host.rendering Memory)) : Prop where
  trees : KeepsTrees calls
  call : ∀ code arguments {scene machine}, Tidy scene machine → Calm scene machine →
    Ensures .any (calls.call code arguments) machine fun _ after => Strays scene machine after
  react : ∀ code {scene machine}, Tidy scene machine → Calm scene machine →
    Ensures .any (calls.react code) machine fun _ after => Strays scene machine after
  control : ∀ code inputs {scene machine}, Tidy scene machine → Calm scene machine →
    Ensures .any (calls.control code inputs) machine fun _ after => Strays scene machine after
  build : ∀ code arguments {scene machine}, Tidy scene machine →
    Ensures .any (calls.build code arguments) machine fun child after => Brings scene machine after child
  view : ∀ code context slots {scene machine}, Tidy scene machine →
    Ensures .any (calls.view code context slots) machine fun child after => Yields scene (fun _ => False) machine after ∧ ∀ made ∈ child, Brings scene machine after made
  host : ∀ code {scene machine}, Tidy scene machine → Calm scene machine →
    Ensures .any (calls.perform (.host code)) machine fun _ after => Strays scene machine after
  perform : ∀ task effect {scene machine}, Begins scene effect task machine →
    Ensures .any (calls.perform task) machine fun cleanup after => cleanup = none ∧ Performed scene effect task machine after
  flush : ∀ {scene machine}, Tidy scene machine → Calm scene machine →
    Ensures .any calls.flush machine fun _ after => Strays scene machine after ∧ (machine.graph.depth = 0 → after.graph.queue = [])
  mount : ∀ id target anchor {scene machine}, Tidy scene machine → Calm scene machine → Movable scene machine id → id < machine.nodes.size →
    ¬ On machine id → Hangs scene machine id target anchor → Ensures .any (calls.mount id target anchor) machine fun _ after => Yields scene (· = id) machine after ∧ On after id
  elements : ∀ id target anchor {scene machine}, Tidy scene machine → Clear scene machine id → Hangs scene machine id target anchor →
    Ensures .any (calls.elements id) machine fun handles _ => ∀ stead, scene.stead = some stead → Bears scene machine target [id] handles
  unmount : ∀ id target {scene machine}, Tidy scene machine → Movable scene machine id → (∃ anchor, Hangs scene machine id target anchor) →
    Ensures .any (calls.unmount id target) machine fun _ after => Yields scene (· = id) machine after ∧ ¬ On after id

theorem calm_of_inBatch (inBatch : 0 < machine.graph.depth) : Calm scene machine := fun closed => absurd closed (Nat.ne_of_gt inBatch)

theorem Calm.carry (calm : Calm scene before) (depth : after.graph.depth = before.graph.depth) : Calm scene after := fun closed => calm (depth ▸ closed)

theorem Tidy.enterBatch (tidy : Tidy scene machine) : Tidy scene { machine with graph := machine.graph.enterBatch } := by
  have alike : Alike machine { machine with graph := machine.graph.enterBatch } := ⟨rfl, rfl, rfl, rfl, rfl, rfl⟩
  exact alike.tidy tidy tidy.upright.enterBatch

theorem Tidy.unobserved (tidy : Tidy scene machine) : Tidy scene { machine with graph := { machine.graph with observer := none } } := by
  have alike : Alike machine { machine with graph := { machine.graph with observer := none } } := ⟨rfl, rfl, rfl, rfl, rfl, rfl⟩
  exact alike.tidy tidy tidy.upright.unobserved

theorem ensures_modifyGraph_bind {breaks : Breaks} {f : Web Memory → Web Memory} {next : Unit → Act Memory β} {post : β → Stage Memory → Prop} :
    Ensures breaks (modifyGraph f >>= next) machine post ↔ Ensures breaks (next ()) { machine with graph := f machine.graph } post := Iff.rfl

theorem ensures_graph?_bind {breaks : Breaks} {next : Web Memory → Act Memory β} {post : β → Stage Memory → Prop} :
    Ensures breaks (graph? >>= next) machine post ↔ Ensures breaks (next machine.graph) machine post := Iff.rfl

/-- A step goes on with code. -/
theorem Strays.go {step : Act Memory α} (strays : Strays scene machine before)
    (rest : Ensures .any step before fun _ after => Strays scene before after) : Ensures .any step before fun _ after => Strays scene machine after :=
  rest.mono fun _ _ later => strays.trans later

section

variable (keeps : KeepsScenes calls) (tidy : Tidy scene machine)

include keeps tidy

/-- After a change beside the trees the effects that wait may run. -/
theorem strays_flush (calm : Calm scene machine) (aside : Aside.plain machine after) :
    Ensures .any calls.flush after fun _ last => Strays scene machine last ∧ Strays scene after last := by
  have beside := tidy.beside aside fun _ => False.elim
  refine (keeps.flush beside (calm.carry aside.kept.steady.depth)).mono fun _ last ⟨strays, drained⟩ => ?_
  have depth := aside.kept.steady.depth
  refine ⟨⟨⟨strays.tidy, (tidy.frame_aside aside fun _ => False.elim).trans strays.frame fun _ never => never.elim, fun inBatch => ?_,
    fun closed _ => drained (depth.trans closed)⟩, fun inBatch => aside.trans (strays.aside (depth ▸ inBatch)) fun _ => False.elim⟩, strays⟩
  exact aside.attends.trans (strays.attends (depth ▸ inBatch)) aside.kept.steady strays.frame.steady fun _ => False.elim

theorem strays_updateSignal (calm : Calm scene machine) {cell : Nat} {held : Value} (signal : machine.graph.content? cell = some (.signal held)) (value : Value) :
    Ensures .any (updateSignal calls cell value) machine fun _ after => Strays scene machine after := by
  show Ensures .any calls.flush { machine with graph := machine.graph.write cell value } fun _ after => Strays scene machine after
  exact (strays_flush keeps tidy calm (.write tidy.upright signal value)).mono fun _ _ => And.left

theorem strays_writeSignal (calm : Calm scene machine) {cell : Nat} {held : Value} (signal : machine.graph.content? cell = some (.signal held)) (value : Value) :
    Ensures .any (writeSignal calls cell value) machine fun _ after => Strays scene machine after := by
  show Ensures .any (if ((machine.graph.value? cell).getD .undefined).same value then pure () else updateSignal calls cell value) machine _
  split
  · exact .refl tidy
  · exact strays_updateSignal keeps tidy calm signal value

omit keeps tidy in
theorem strays_onSignal {cell : Nat} {act : Act Memory Unit}
    (acting : ∀ held, machine.graph.content? cell = some (.signal held) → Ensures .any act machine fun _ after => Strays scene machine after) :
    Ensures .any (onSignal cell act) machine fun _ after => Strays scene machine after := by
  refine ensures_graph?_bind.2 ?_
  split
  next held signal => exact acting held signal
  next => trivial

theorem strays_query (query : Query) : Ensures .any (query.run calls) machine fun _ after => Strays scene machine after := by
  have upright := tidy.upright
  refine (ensures_run keeps.trees.answers query ⟨upright.coherent, upright.graph_observing, .inl trivial⟩).mono fun value after evaluated => ?_
  exact .of_aside tidy (.of_evaluated upright evaluated) fun _ empty => evaluated.refreshed.queue.trans empty

theorem strays_readCell (cell : Nat) : Ensures .any (readCell calls cell) machine fun _ after => Strays scene machine after := by
  have upright := tidy.upright
  refine (ensures_readCell keeps.trees.answers ⟨upright.coherent, upright.graph_observing, .inl trivial⟩).mono fun value after evaluated => ?_
  exact .of_aside tidy (.of_evaluated upright evaluated) fun _ empty => evaluated.refreshed.queue.trans empty

theorem strays_untracked_call (calm : Calm scene machine) (code : Code Memory) :
    Ensures .any (discard (untrack (calls.call code []))) machine fun _ after => Strays scene machine after := by
  simp only [ensures_discard, untrack, ensures_observedBy]
  exact (keeps.call code [] tidy.unobserved calm).mono fun _ _ strays => .unobserved tidy.upright strays

/-- What is done in a batch is beside the trees, and then the effects that wait may run. -/
theorem strays_batch (calm : Calm scene machine) {step : Act Memory α}
    (inside : Ensures .any step { machine with graph := machine.graph.enterBatch } fun _ after => Aside.plain { machine with graph := machine.graph.enterBatch } after) :
    Ensures .any (batch calls step) machine fun _ after => Strays scene machine after := by
  simp only [batch, ensures_bind, ensures_withBatch, ensures_pure]
  exact inside.mono fun _ between aside => (strays_flush keeps tidy calm (.batched aside)).mono fun _ _ => And.left

end

/-! Effects of scripts. -/

theorem Tidy.not_drives (tidy : Tidy scene machine) {effect : Nat} (loose : ¬ Stock scene machine effect) (task : Task (Code Memory)) :
    ¬ Drives machine.graph effect task := fun drives => loose (tidy.stock_of_drives drives)

/-- An effect that drives nothing gives its body away to run it. -/
theorem Tidy.started (tidy : Tidy scene machine) {effect : Effect (Code Memory) (Task (Code Memory))} (found : machine.graph.content? id = some (.effect effect))
    (idle : ∀ task, ¬ Drives machine.graph id task) :
    Tidy scene { machine with graph := { machine.graph.modifyEffect id fun effect => { effect with body := none } with observer := some id } } := by
  have self : (machine.graph.modifyEffect id fun effect => { effect with body := none }).content? id = some (.effect { effect with body := none }) :=
    content?_modifyEffect_self _ _ found
  have rest {other : Nat} (apart : other ≠ id) : (machine.graph.modifyEffect id fun effect => { effect with body := none }).content? other =
      machine.graph.content? other := content?_modifyEffect_of_ne _ _ apart
  have drives (other : Nat) (task : Task (Code Memory)) : Drives { machine.graph.modifyEffect id fun effect => { effect with body := none } with observer := some id }
      other task ↔ Drives machine.graph other task := by
    by_cases here : other = id
    · subst here
      refine ⟨?_, fun drives => absurd drives (idle task)⟩
      rintro ⟨_, again, _, body, _⟩
      cases self.symm.trans again
      cases body
    · exact ⟨fun ⟨later, again, more⟩ => ⟨later, (rest here).symm.trans again, more⟩, fun ⟨later, again, more⟩ => ⟨later, (rest here).trans again, more⟩⟩
  have attends : machine.graph.Attends (fun _ => False) { machine.graph.modifyEffect id fun effect => { effect with body := none } with observer := some id } := by
    refine .of_same (fun _ member => member) (fun other _ => ?_) fun cell value holds => ?_
    · show machine.graph.sources other ⊆ (machine.graph.modifyEffect id fun effect => { effect with body := none }).sources other
      rw [sources_modifyEffect]
      exact fun _ member => member
    · exact ((Script.sameCells_modifyEffect machine.graph id fun effect => { effect with body := none }).current? cell).trans holds
  refine tidy.regraph ((tidy.upright.taken found).observe self) rfl rfl rfl (fun other task => (drives other task).1) (fun other task _ isDriver _ _ => (drives other task).2 isDriver)
    attends (fun _ _ never => never.elim) (fun other stock => ?_) fun other member => ?_
  · obtain ⟨apart, kept, isKept, clean⟩ := tidy.stocked.tame other stock
    refine ⟨apart, ?_⟩
    by_cases here : other = id
    · subst here
      cases found.symm.trans isKept
      exact ⟨_, self, fun awake => ⟨(clean awake).1, fun _ never => by cases never⟩⟩
    · exact ⟨kept, (rest here).trans isKept, clean⟩
  · obtain ⟨inside, never⟩ := tidy.stocked.scripts other member
    refine ⟨?_, fun task isDriver => never task ((drives other task).1 isDriver)⟩
    show other < (machine.graph.modifyEffect id fun effect => { effect with body := none }).vertices.size
    rwa [size_modifyEffect]

section

variable (keeps : KeepsScenes calls) (tidy : Tidy scene machine)

include keeps tidy

theorem aside_untracked_call (inBatch : 0 < machine.graph.depth) (code : Code Memory) :
    Ensures .any (discard (untrack (calls.call code []))) machine fun _ after => Aside.plain machine after :=
  (strays_untracked_call keeps tidy (calm_of_inBatch inBatch) code).mono fun _ _ strays => strays.aside inBatch

variable (loose : ¬ Stock scene machine id)

include loose

omit keeps in
theorem Tidy.beside_one (aside : Aside (· = id) machine after) : Tidy scene after := tidy.beside aside fun _ here => here ▸ loose

theorem aside_runCleanup (inBatch : 0 < machine.graph.depth) : Ensures .any (runCleanup calls id) machine fun _ after => Aside (· = id) machine after := by
  refine ensures_graph?_bind.2 ?_
  split
  next => exact .refl tidy.upright
  next code _ =>
    refine ensures_modifyGraph_bind.2 ?_
    have taken : Aside (· = id) machine { machine with graph := machine.graph.modifyEffect id fun effect => { effect with cleanup := none } } := by
      refine .modifyEffect tidy.upright ?_ (fun effect => { effect with cleanup := none }) (fun _ _ awake => ⟨awake, rfl⟩) (fun _ _ same => same) (fun _ => rfl)
      exact .inl rfl
    exact (aside_untracked_call keeps (tidy.beside_one loose taken) inBatch code).mono fun _ _ called => taken.trans called fun _ => False.elim

omit loose in
theorem aside_settleCleanup (inBatch : 0 < machine.graph.depth) (cleanup : Option (Code Memory)) :
    Ensures .any (settleCleanup calls id cleanup) machine fun _ after => Aside (· = id) machine after := by
  refine ensures_graph?_bind.2 ?_
  split
  · cases cleanup with
    | none => exact .refl tidy.upright
    | some code => exact (aside_untracked_call keeps tidy inBatch code).mono fun _ _ called => called.mono fun _ => False.elim
  · show Aside (· = id) machine { machine with graph := machine.graph.modifyEffect id fun effect => { effect with cleanup } }
    refine .modifyEffect tidy.upright ?_ (fun effect => { effect with cleanup }) (fun _ _ awake => ⟨awake, rfl⟩) (fun _ _ same => same) (fun _ => rfl)
    exact .inl rfl

/-- The body of an effect of a script runs. -/
theorem aside_body {effect : Effect (Code Memory) (Task (Code Memory))} {code : Code Memory} (found : machine.graph.content? id = some (.effect effect))
    (isBody : effect.body = some (.host code)) (awake : id ∉ machine.world.effects → effect.disposed = false) (inBatch : 0 < machine.graph.depth) :
    Ensures .any (modifyGraph (·.modifyEffect id fun effect => { effect with body := none }) >>= fun _ =>
      (observedBy (some id) (holding (Task.host code).parts (calls.perform (.host code)))).after fun _ machine =>
        { machine with graph := machine.graph.modifyEffect id fun effect => { effect with body := some (.host code) } }) machine
      fun _ after => Aside (· = id) machine after := by
  refine ensures_modifyGraph_bind.2 ?_
  rw [ensures_after, ensures_observedBy, ensures_holding]
  have started := tidy.started found (tidy.not_drives loose)
  have held : Tidy scene { machine with
      graph := { machine.graph.modifyEffect id fun effect => { effect with body := none } with observer := some id }
      held := (Task.host code).parts ++ machine.held } := started.carry rfl rfl rfl rfl rfl
  refine (keeps.host code held (calm_of_inBatch inBatch)).mono fun cleanup after strays => ?_
  have aside : Aside.plain { machine with graph := { machine.graph.modifyEffect id fun effect => { effect with body := none } with observer := some id } }
      { after with held := machine.held } := (strays.aside inBatch).carry rfl rfl rfl rfl rfl rfl rfl rfl rfl rfl
  exact Aside.body tidy.upright rfl found isBody awake aside

/-- A run of an effect that is not kept for a node. -/
theorem aside_runEffect (inBatch : 0 < machine.graph.depth) : Ensures .any (runEffect calls id) machine fun _ after => Aside (· = id) machine after := by
  refine ensures_graph?_bind.2 ?_
  split
  next => exact .refl tidy.upright
  next effect isEffect =>
    split
    next => exact .refl tidy.upright
    next awake =>
      have released : Aside (· = id) machine { machine with graph := machine.graph.release id } :=
        .release tidy.upright rfl (machine.graph.effect?_eq_some.1 isEffect)
      have go {between last : Stage Memory} (first : Aside (· = id) machine between) (second : Aside (· = id) between last) : Aside (· = id) machine last :=
        first.trans second fun _ => .inl
      have looseLater {between : Stage Memory} (aside : Aside (· = id) machine between) : ¬ Stock scene between id := by
        rintro (isPending | ⟨other, isKept⟩)
        · exact loose (.inl isPending)
        · exact loose (.inr ⟨other, (keeps_congr aside.nodes other _).1 isKept⟩)
      refine ensures_modifyGraph_bind.2 ?_
      rw [ensures_bind]
      refine (aside_runCleanup keeps (tidy.beside_one loose released) (looseLater released) (released.kept.steady.depth ▸ inBatch)).mono fun _ between cleaned => ?_
      have sofar := go released cleaned
      have tidyLater := tidy.beside_one loose sofar
      refine ensures_graph?_bind.2 ?_
      split
      next => exact sofar
      next body isBody =>
        obtain ⟨later, foundLater, stored⟩ := Option.bind_eq_some_iff.1 isBody
        replace foundLater := between.graph.effect?_eq_some.1 foundLater
        obtain ⟨code, rfl⟩ : ∃ code, body = .host code := by
          have found := machine.graph.effect?_eq_some.1 isEffect
          have idle (renders : body.Renders) : False :=
            loose (tidy.stock_of_drives ⟨effect, found, by simpa using awake, sofar.bodied id effect later body found foundLater stored renders, renders⟩)
          cases body with
          | host code => exact ⟨code, rfl⟩
          | _ => exact (idle trivial).elim
        have inBatchLater : 0 < between.graph.depth := sofar.kept.steady.depth ▸ inBatch
        have awakeLater (apart : id ∉ between.world.effects) : later.disposed = false := by
          obtain ⟨again, foundAgain, live⟩ := sofar.lives id apart ⟨effect, machine.graph.effect?_eq_some.1 isEffect, by simpa using awake⟩
          cases foundLater.symm.trans foundAgain
          exact live
        rw [← LawfulMonad.bind_assoc, ensures_bind]
        refine (aside_body keeps tidyLater (looseLater sofar) foundLater stored awakeLater inBatchLater).mono fun cleanup after ran => ?_
        have done := go sofar ran
        refine (aside_settleCleanup keeps (tidy.beside_one loose done) (done.kept.steady.depth ▸ inBatch) cleanup).mono fun _ last settled => ?_
        exact go done settled

end

section

variable (keeps : KeepsScenes calls) (tidy : Tidy scene machine) (calm : Calm scene machine)

include keeps tidy calm

/-- An effect of a script is made and runs. It drives nothing and is not kept for a node. -/
theorem strays_newEffect (code : Code Memory) : Ensures .any (newEffect calls (.host code)) machine fun effect after =>
    Strays scene machine after ∧ machine.graph.vertices.size ≤ effect ∧ effect < after.graph.vertices.size ∧ ¬ Stock scene after effect := by
  have added : Aside.plain machine { machine with graph := (machine.graph.add (.effect ⟨some (.host code), none, false⟩)).2 } := by
    refine .add tidy.upright nofun ?_
    rintro _ ⟨⟩
    exact ⟨code, rfl⟩
  have tidyAdded := tidy.beside added fun _ => False.elim
  have unknown : ¬ Stock scene machine machine.graph.vertices.size := fun stock => absurd (tidy.lt_size_of_stock stock) (Nat.lt_irrefl _)
  show Ensures .any (batch calls (runEffect calls machine.graph.vertices.size) >>= fun _ => pure machine.graph.vertices.size)
    { machine with graph := (machine.graph.add (.effect ⟨some (.host code), none, false⟩)).2 } _
  simp only [batch, ensures_bind, ensures_withBatch, ensures_pure]
  refine (aside_runEffect keeps tidyAdded.enterBatch unknown (Nat.succ_pos _)).mono fun _ between ran => ?_
  have aside : Aside.plain machine { between with graph := between.graph.leaveBatch false } :=
    added.trans (.batched ran) fun _ here => .inr (Nat.le_of_eq here.symm)
  have there : machine.graph.vertices.size < between.graph.vertices.size := by
    have size : (machine.graph.add (.effect ⟨some (.host code), none, false⟩)).2.vertices.size ≤ between.graph.vertices.size := ran.kept.steady.size
    exact Nat.lt_of_lt_of_le (by simp [Graph.add]) size
  have thereLeft : machine.graph.vertices.size < (between.graph.leaveBatch false).vertices.size := by
    rw [leaveBatch_false]
    exact there
  refine (strays_flush keeps tidy calm aside).mono fun _ after ⟨strays, flushed⟩ => ⟨strays, Nat.le_refl _, Nat.lt_of_lt_of_le thereLeft flushed.frame.steady.size, ?_⟩
  rintro (isPending | ⟨other, isKept⟩)
  · exact unknown (.inl isPending)
  · obtain isPending | ⟨again, wasKept⟩ | new := flushed.frame.stock other _ isKept
    · exact unknown (.inl isPending)
    · exact unknown (.inr ⟨again, (keeps_congr aside.nodes again _).1 wasKept⟩)
    · exact absurd thereLeft (Nat.not_lt.2 new)

end

/-- A script comes to own an effect that it has made. -/
theorem Strays.adopt (strays : Strays scene before after) {effect : Nat} (new : before.graph.vertices.size ≤ effect) (there : effect < after.graph.vertices.size)
    (loose : ¬ Stock scene after effect) : Strays scene before { after with world := { after.world with effects := effect :: after.world.effects } } := by
  have tidy : Tidy scene { after with world := { after.world with effects := effect :: after.world.effects } } := by
    have attends : after.graph.Attends (fun _ => False) after.graph := .refl _
    refine strays.tidy.regraph (strays.tidy.upright.carry rfl rfl) rfl rfl rfl (fun _ _ drives => drives)
      (fun _ _ _ drives _ _ => drives) attends (fun _ _ never => never.elim)
      (fun other stock => ?_) fun other member => ?_
    · obtain ⟨apart, kept⟩ := strays.tidy.stocked.tame other stock
      refine ⟨fun member => ?_, kept⟩
      obtain rfl | member := List.mem_cons.1 member
      · exact loose stock
      · exact apart member
    · obtain rfl | member := List.mem_cons.1 member
      · exact ⟨there, strays.tidy.not_drives loose⟩
      · exact strays.tidy.stocked.scripts other member
  have frame := strays.frame
  refine ⟨⟨tidy, ⟨frame.steady, ⟨frame.grows.size, frame.grows.blank, frame.grows.kids⟩, frame.busy, frame.still, frame.loose, frame.spared, frame.roots,
    ⟨fun id member => List.mem_cons_of_mem _ (frame.effects.1 member), fun id member => ?_⟩, frame.stock, fun id target anchor busy hangs =>
      (frame.hung id target anchor busy hangs).congr rfl rfl fun _ _ _ guarded => guarded,
    fun other lingers => frame.lingers other (lingers.disown fun _ => List.mem_cons_of_mem _)⟩, strays.attends, strays.idle⟩,
    fun inBatch => (strays.aside inBatch).adopt new there⟩
  obtain rfl | member := List.mem_cons.1 member
  · exact .inr new
  · exact frame.effects.2 id member

section

variable (keeps : KeepsScenes calls) (tidy : Tidy scene machine) (calm : Calm scene machine)

include keeps tidy calm

theorem strays_runCleanup (isScripts : id ∈ machine.world.effects) : Ensures .any (runCleanup calls id) machine fun _ after => Strays scene machine after := by
  refine ensures_graph?_bind.2 ?_
  split
  next => exact .refl tidy
  next code _ =>
    refine ensures_modifyGraph_bind.2 ?_
    have taken : Aside.plain machine { machine with graph := machine.graph.modifyEffect id fun effect => { effect with cleanup := none } } :=
      .modifyEffect tidy.upright (.inr isScripts) (fun effect => { effect with cleanup := none }) (fun _ _ awake => ⟨awake, rfl⟩) (fun _ _ same => same) (fun _ => rfl)
    have strays : Strays scene machine _ := .of_aside tidy taken fun _ empty => empty
    exact strays.go (strays_untracked_call keeps strays.tidy (calm.carry strays.depth) code)

theorem strays_dispose (isScripts : id ∈ machine.world.effects) : Ensures .any (dispose calls id) machine fun _ after => Strays scene machine after := by
  refine ensures_graph?_bind.2 ?_
  split
  next => exact .refl tidy
  next effect isEffect =>
    split
    next => exact .refl tidy
    next awake =>
      have found := machine.graph.effect?_eq_some.1 isEffect
      have retired : Aside.plain machine { machine with graph := machine.graph.retire id } := .retire tidy.upright ⟨effect, found, by simpa using awake⟩ isScripts
        (tidy.stocked.scripts id isScripts).2
      have strays : Strays scene machine _ := .of_aside tidy retired fun _ empty => by
        show (machine.graph.retire id).queue = []
        rw [queue_retire, empty, List.filter_nil]
      refine ensures_modifyGraph_bind (f := (·.retire id)).2 ?_
      rw [ensures_bind]
      refine (strays_runCleanup keeps strays.tidy (calm.carry strays.depth) isScripts).mono fun _ between cleaned => ?_
      have gone := cleaned.frame.steady.isDisposed ⟨_, content?_retire_self found, rfl⟩
      have dropped : Aside.plain between { between with graph := between.graph.modifyEffect id fun effect => { effect with body := none } } :=
        .modifyEffect cleaned.tidy.upright (.inr (cleaned.frame.effects.1 isScripts)) (fun effect => { effect with body := none })
          (fun later foundLater awake => absurd ⟨later, foundLater, awake⟩ gone.not_isLive) (fun _ _ never => absurd never.symm (Option.some_ne_none _)) fun _ => rfl
      exact (strays.trans cleaned).trans (.of_aside cleaned.tidy dropped fun _ empty => empty)

end

/-- Scripts, whatever they do. -/
theorem strays_run (keeps : KeepsScenes calls) (script : Script Memory) {machine : Stage Memory} (tidy : Tidy scene machine) (calm : Calm scene machine) :
    Ensures .any (run calls script) machine fun _ after => Strays scene machine after := by
  induction script generalizing machine with
  | finish | leave => exact .refl tidy
  | newSignal value next ih =>
    have strays : Strays scene machine { machine with graph := (machine.graph.add (.signal value)).2 } :=
      .of_aside tidy (.add tidy.upright nofun nofun) fun _ empty => empty
    exact strays.go (ih _ strays.tidy (calm.carry strays.depth))
  | newComputed query next ih =>
    have strays : Strays scene machine { machine with graph := (machine.graph.add (.computed ⟨.query query, none, true, false⟩)).2 } := by
      refine .of_aside tidy (.add tidy.upright ?_ nofun) fun _ empty => empty
      rintro _ ⟨⟩
      exact ⟨rfl, query, rfl⟩
    exact strays.go (ih _ strays.tidy (calm.carry strays.depth))
  | newEffect body next _ ih =>
    rw [run, ensures_bind]
    refine (strays_newEffect keeps tidy calm _).mono fun effect between created => ?_
    obtain ⟨strays, new, there, loose⟩ := created
    have adopted := strays.adopt new there loose
    exact adopted.go (ih effect adopted.tidy (calm.carry adopted.depth))
  | get cell next ih =>
    rw [run, ensures_bind]
    exact (strays_readCell keeps tidy cell).mono fun value between strays => strays.go (ih value strays.tidy (calm.carry strays.depth))
  | peek cell next ih => exact ih _ tidy calm
  | set cell value next ih =>
    rw [run, ensures_bind]
    refine (strays_onSignal fun held signal => strays_writeSignal keeps tidy calm signal value).mono fun _ between strays => ?_
    exact strays.go (ih strays.tidy (calm.carry strays.depth))
  | update cell value next ih =>
    rw [run, ensures_bind]
    refine (strays_onSignal fun held signal => strays_updateSignal keeps tidy calm signal value).mono fun _ between strays => ?_
    exact strays.go (ih strays.tidy (calm.carry strays.depth))
  | batch body next ihBody ih =>
    rw [run, ensures_bind]
    refine (strays_batch keeps tidy calm ?_).mono fun result between strays => strays.go (ih result.1 strays.tidy (calm.carry strays.depth))
    exact (ihBody tidy.enterBatch (calm_of_inBatch (Nat.succ_pos _))).mono fun _ _ strays => strays.aside (Nat.succ_pos _)
  | untrack body next ihBody ih =>
    rw [run, ensures_bind, untrack, ensures_observedBy]
    refine (ihBody tidy.unobserved calm).mono fun result between unseen => ?_
    have strays := unseen.unobserved tidy.upright
    exact strays.go (ih result.1 strays.tidy (calm.carry strays.depth))
  | dispose effect next ih =>
    rw [run, ensures_bind, ensures_get]
    split
    next isScripts =>
      rw [ensures_bind]
      refine (strays_dispose keeps tidy calm (by simpa using isScripts)).mono fun _ between strays => strays.go (ih strays.tidy (calm.carry strays.depth))
    next => exact trivial
  | remember access next ih =>
    have strays : Strays scene machine { machine with world := { machine.world with memory := (access machine.world.memory).2 } } :=
      (Strays.refl tidy).carry rfl rfl rfl rfl rfl
    exact strays.go (ih _ strays.tidy (calm.carry strays.depth))

end Rendering

end ReactiveMarkup
