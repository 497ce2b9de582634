import ReactiveMarkup.Proofs.ScenePlaces

/-! What holds of mounted trees while code runs. Some nodes are being mounted, unmounted or brought up to date; all
others are settled: one that is not mounted is as it was made and nothing below it is mounted, and one that follows
cells has an effect that waits or is up to date. -/

namespace ReactiveMarkup

namespace Rendering

open ReactiveMarkup.Graph ReactiveMarkup.Machine

variable {Memory : Type}

variable {scene : Scene} {machine : Stage Memory} {id : NodeId}

/-- A mounted node of a fixed shape shows all that is right below it. -/
def Filled (machine : Stage Memory) : Node (Code Memory) → Prop
  | .element node => ∀ child ∈ node.child, On machine child
  | .fragment node => ∀ child ∈ node.children, On machine child
  | .component node => ∀ child ∈ node.child, On machine child
  | .text _ | .conditional _ | .list _ => True

/-- A conditional has one of its branches mounted if it says that it shows it, and no other. -/
def Presents (machine : Stage Memory) (node : ConditionalNode (Code Memory)) : Prop :=
  ∀ kid ∈ (Node.conditional node).kids, On machine kid ↔ node.active = some kid

/-- A conditional shows what it selects, and its effect waits unless that is what the first true test says. -/
structure Follows (machine : Stage Memory) (effect : Nat) (node : ConditionalNode (Code Memory)) (selection : Selection) : Prop where
  selected : node.selected = some selection
  active : node.active = choice node selection
  current : effect ∈ machine.graph.queue ∨ FirstTrue (Minded machine.graph effect) 0 (node.branches.map Prod.fst) selection

/-- What a list shows: the nodes of its entries, each under one of its keys, or the node for no items. -/
structure Lists (machine : Stage Memory) (list : ListNode (Code Memory)) : Prop where
  keyed : ∀ entry ∈ list.entries, entry.1 ∈ list.keys
  entries : ∀ entry ∈ list.entries, On machine entry.2.node
  empty : ∀ empty ∈ list.empty, On machine empty ↔ list.emptyMounted = true
  distinct : list.keys.Nodup
  complete : ∀ key ∈ list.keys, ∃ entry ∈ list.entries, entry.1 = key

/-- What an effect of a node that does not run says about the node. -/
def Governs (scene : Scene) (machine : Stage Memory) (effect : Nat) : Task (Code Memory) → Prop
  | .branches id _ _ =>
    ∃ node, machine.nodes[id]? = some (.conditional node) ∧ node.mounted = true ∧ Presents machine node ∧ ∃ selection, Follows machine effect node selection
  | .items id _ => ∃ list, machine.nodes[id]? = some (.list list) ∧ (list.mounted = true ∨ scene.opened id) ∧ Lists machine list
  | .text id _ => ∃ node, machine.nodes[id]? = some (.text node) ∧ node.handle.isSome = true
  | .property _ _ _ | .classes _ _ | .host _ => True

/-- A mounted node that follows cells has an effect for that. -/
def Watched (machine : Stage Memory) (id : NodeId) : Node (Code Memory) → Prop
  | .conditional _ => ∃ effect target anchor, Keeps machine id (.effect effect) ∧ Drives machine.graph effect (.branches id target anchor)
  | .list _ => ∃ effect target, Keeps machine id (.effect effect) ∧ Drives machine.graph effect (.items id target)
  | .element _ | .text _ | .fragment _ | .component _ => True

/-- A node that is not mounted is as it was made, and nothing below it is mounted. One that is mounted shows what it has to show. -/
structure Settled (machine : Stage Memory) (id : NodeId) (node : Node (Code Memory)) : Prop where
  shut : node.isOn = false → ∀ kid ∈ node.kids, ¬ On machine kid
  bare : node.isOn = false → node.Bare
  filled : node.isOn = true → Filled machine node
  watched : node.isOn = true → Watched machine id node

/-- The order among nodes, and which of them are mounted. -/
structure Arranged (scene : Scene) (machine : Stage Memory) : Prop where
  unique : ∀ parent other, ∀ kid ∈ kids machine parent, kid ∈ kids machine other → parent = other
  distinct : ∀ parent, (kids machine parent).Nodup
  roots : ∀ root ∈ machine.world.roots, root < machine.nodes.size ∧ ∀ parent, root ∉ kids machine parent
  inside : ∀ id, scene.Busy id → id < machine.nodes.size
  /-- What is mounted or unmounted is so by a node above it that waits for it. -/
  upward : ∀ id, scene.opened id → ∀ parent, id ∈ kids machine parent → scene.still parent
  settled : ∀ id node, machine.nodes[id]? = some node → ¬ scene.Busy id → Settled machine id node

/-- What has been set up for nodes: it is kept in one place, and scripts have nothing to do with it. -/
structure Stocked (scene : Scene) (machine : Stage Memory) : Prop where
  apart : ∀ first second effect, Keeps machine first (.effect effect) → Keeps machine second (.effect effect) → first = second
  loose : ∀ effect, scene.pending (.effect effect) → ∀ id, ¬ Keeps machine id (.effect effect)
  /-- Effects that are kept are there, and leave nothing to clean up. -/
  tame : ∀ effect, (scene.pending (.effect effect) ∨ ∃ id, Keeps machine id (.effect effect)) → effect ∉ machine.world.effects ∧
    ∃ found, machine.graph.content? effect = some (.effect found) ∧ (found.disposed = false → found.cleanup = none ∧
      ∀ task, found.body = some task → task.Renders)
  scripts : ∀ effect ∈ machine.world.effects, effect < machine.graph.vertices.size ∧ ∀ task, ¬ Drives machine.graph effect task

/-- Where an effect of a node is kept: by the step that mounts the node, or by the node. -/
def Assigned (scene : Scene) (machine : Stage Memory) (effect : Nat) (task : Task (Code Memory)) : Prop :=
  (scene.pending (.effect effect) ∧ ∀ subject, task.subject? = some subject → scene.opened subject) ∨
    ∃ id, Keeps machine id (.effect effect) ∧ ∀ subject, task.subject? = some subject → subject = id

/-- An effect of a node: where it is kept, and what it says about the node. -/
structure Steers (scene : Scene) (machine : Stage Memory) (effect : Nat) (task : Task (Code Memory)) : Prop where
  kept : Assigned scene machine effect task
  paused : ∀ subject, task.subject? = some subject → ¬ scene.still subject
  governs : Governs scene machine effect task

/-- The effects of nodes. No two of them are about the same node. -/
structure Driven (scene : Scene) (machine : Stage Memory) : Prop where
  steers : ∀ effect task, Drives machine.graph effect task → Steers scene machine effect task
  sole : ∀ first second task other subject, Drives machine.graph first task → Drives machine.graph second other →
    task.subject? = some subject → other.subject? = some subject → first = second

/-- What holds of trees whenever a step on them begins or ends. -/
structure Tidy (scene : Scene) (machine : Stage Memory) : Prop where
  upright : Upright machine
  arranged : Arranged scene machine
  stocked : Stocked scene machine
  driven : Driven scene machine
  placed : ∀ stead, scene.stead = some stead → Placed scene stead machine

theorem on_iff {node : Node (Code Memory)} (found : machine.nodes[id]? = some node) : On machine id ↔ node.isOn = true := by
  simp [On, found]

theorem keeps_iff {node : Node (Code Memory)} (found : machine.nodes[id]? = some node) {disposable : Disposable} :
    Keeps machine id disposable ↔ disposable ∈ node.disposables := by
  simp [Keeps, found]

theorem not_on_iff {node : Node (Code Memory)} (found : machine.nodes[id]? = some node) : ¬ On machine id ↔ node.isOn = false := by
  rw [on_iff found, Bool.not_eq_true]

theorem On.lt_size (on : On machine id) : id < machine.nodes.size := by
  obtain ⟨node, found, _⟩ := on
  exact (Array.getElem?_eq_some_iff.1 found).1

theorem Drives.content? {graph : Web Memory} {effect : Nat} {task : Task (Code Memory)} (drives : Drives graph effect task) :
    ∃ found, graph.content? effect = some (.effect found) ∧ found.disposed = false ∧ found.body = some task := by
  obtain ⟨found, isEffect, awake, body, _⟩ := drives
  exact ⟨found, isEffect, awake, body⟩

theorem Drives.unique {graph : Web Memory} {effect : Nat} {task other : Task (Code Memory)} (first : Drives graph effect task)
    (second : Drives graph effect other) : task = other := by
  obtain ⟨_, found, _, body⟩ := first.content?
  obtain ⟨_, again, _, bodyToo⟩ := second.content?
  cases found.symm.trans again
  exact Option.some.inj (body.symm.trans bodyToo)

theorem Drives.isLive {graph : Web Memory} {effect : Nat} {task : Task (Code Memory)} (drives : Drives graph effect task) :
    graph.IsLive effect := by
  obtain ⟨found, isEffect, awake, _⟩ := drives
  exact ⟨found, isEffect, awake⟩

/-- A node and all that is below it rests. -/
def Clear (scene : Scene) (machine : Stage Memory) (id : NodeId) : Prop := ∀ other, Below machine id other → ¬ scene.Busy other

/-- A node that may be mounted or unmounted: it rests, and what is right above it waits for it. -/
structure Movable (scene : Scene) (machine : Stage Memory) (id : NodeId) : Prop where
  clear : Clear scene machine id
  waiting : ∀ parent, id ∈ kids machine parent → scene.still parent

/-- Outside of any batch no effect runs. -/
def Calm (scene : Scene) (machine : Stage Memory) : Prop := machine.graph.depth = 0 → ∀ id, scene.still id → scene.opened id

/-- What steps under way have set up and still need. -/
def Needed (scene : Scene) (machine : Stage Memory) (effect : Nat) : Prop :=
  scene.pending (.effect effect) ∨ ∃ id, scene.Busy id ∧ Keeps machine id (.effect effect)

/-- An effect that is over but has left something of itself: sources, unless it is a script's own, or what it did for a
node. -/
def Lingers (machine : Stage Memory) (effect : Nat) : Prop :=
  ∃ record, machine.graph.content? effect = some (.effect record) ∧ record.disposed = true ∧
    ((effect ∉ machine.world.effects ∧ machine.graph.sources effect ≠ []) ∨ ∃ task, record.body = some task ∧ task.Renders)

theorem Lingers.not_isLive {effect : Nat} (lingers : Lingers machine effect) : ¬ machine.graph.IsLive effect := by
  obtain ⟨record, found, gone, _⟩ := lingers
  rintro ⟨again, foundAgain, awake⟩
  cases found.symm.trans foundAgain
  cases gone.symm.trans awake

/-- An effect that a script comes to own has no sooner left anything than it did. -/
theorem Lingers.disown {effect : Nat} {effects : List Nat} (lingers : Lingers { machine with world := { machine.world with effects } } effect)
    (more : machine.world.effects ⊆ effects) : Lingers machine effect := by
  obtain ⟨record, found, gone, left⟩ := lingers
  exact ⟨record, found, gone, left.imp_left fun ⟨apart, sources⟩ => ⟨fun member => apart (more member), sources⟩⟩

theorem Lingers.carry {before after : Stage Memory} {effect : Nat} (lingers : Lingers after effect) (content : after.graph.content? effect = before.graph.content? effect)
    (sources : after.graph.sources effect = before.graph.sources effect) (effects : after.world.effects = before.world.effects) : Lingers before effect := by
  rwa [Lingers, ← content, ← sources, ← effects]

/-- What a step leaves as it is for those steps that are under way around it, but for some nodes that it is about. -/
structure Frame (scene : Scene) (about : NodeId → Prop) (before after : Stage Memory) : Prop where
  steady : before.graph.Steady after.graph
  grows : Grows before after
  busy : ∀ id, scene.Busy id → after.nodes[id]?.map Node.mold = before.nodes[id]?.map Node.mold
  still : ∀ id, scene.still id → after.nodes[id]? = before.nodes[id]?
  loose : ∀ id < before.nodes.size, ¬ about id → (∀ parent, id ∈ kids before parent → scene.still parent) → (On after id ↔ On before id)
  spared : ∀ effect, Needed scene before effect → before.graph.IsLive effect → after.graph.IsLive effect
  roots : after.world.roots = before.world.roots
  effects : before.world.effects ⊆ after.world.effects ∧
    ∀ effect ∈ after.world.effects, effect ∈ before.world.effects ∨ before.graph.vertices.size ≤ effect
  stock : ∀ id effect, Keeps after id (.effect effect) →
    scene.pending (.effect effect) ∨ (∃ other, Keeps before other (.effect effect)) ∨ before.graph.vertices.size ≤ effect
  /-- What is busy stays where it belongs. -/
  hung : ∀ id target anchor, scene.Busy id → Hangs scene before id target anchor → Hangs scene after id target anchor
  /-- What comes to be over leaves nothing of itself, unless it observes. -/
  lingers : ∀ effect, Lingers after effect → Lingers before effect ∨ before.graph.observer = some effect

namespace Frame

variable {about more : NodeId → Prop} {before middle after : Stage Memory}

theorem keeps_iff_of_busy (frame : Frame scene about before after) (busy : scene.Busy id) {disposable : Disposable} :
    Keeps after id disposable ↔ Keeps before id disposable := by
  have same := frame.busy id busy
  simp only [Keeps]
  cases old : before.nodes[id]? with
  | none => simp_all
  | some node =>
    cases new : after.nodes[id]? with
    | none => simp_all
    | some later =>
      rw [old, new, Option.map_some, Option.map_some, Option.some.injEq] at same
      simp [Node.disposables_eq_of_mold same]

theorem needed (frame : Frame scene about before after) {effect : Nat} (needed : Needed scene before effect) : Needed scene after effect :=
  needed.imp_right fun ⟨id, busy, keeps⟩ => ⟨id, busy, (frame.keeps_iff_of_busy busy).2 keeps⟩

/-- What waited for all that is above a node waits for it still. -/
theorem waiting (frame : Frame scene about before after) {kid : NodeId} (inside : kid < before.nodes.size)
    (waiting : ∀ parent, kid ∈ kids before parent → scene.still parent) : ∀ parent, kid ∈ kids after parent → scene.still parent :=
  fun parent member => waiting parent ((frame.grows.kids parent kid member).resolve_right (Nat.not_le.2 inside))

theorem clear (frame : Frame scene about before after) (arranged : Arranged scene before) (clear : Clear scene before id) : Clear scene after id := by
  intro other below busy
  exact clear other (frame.grows.below_of_old below (arranged.inside other busy)) busy

/-- A step about more nodes. -/
theorem mono (frame : Frame scene about before after) (includes : ∀ id, about id → more id) : Frame scene more before after :=
  { frame with loose := fun id inside apart => frame.loose id inside fun isAbout => apart (includes id isAbout) }

/-- A step goes on with one that is left more. What that one is about need not be named if nothing around waits for it. -/
theorem join {wide : Scene} (first : Frame scene about before middle) (second : Frame wide more middle after)
    (opened : ∀ id, scene.opened id → wide.opened id) (still : ∀ id, scene.still id → wide.still id)
    (pending : ∀ disposable, scene.pending disposable → wide.pending disposable)
    (named : ∀ id, more id → id < before.nodes.size → about id ∨ ∃ parent, id ∈ kids before parent ∧ ¬ scene.still parent)
    (stocked : ∀ effect, wide.pending (.effect effect) →
      scene.pending (.effect effect) ∨ (∃ other, Keeps before other (.effect effect)) ∨ before.graph.vertices.size ≤ effect)
    (stead : wide.stead = scene.stead) (wards : ∀ holder kid key, scene.wards holder kid key → wide.wards holder kid key)
    (back : ∀ id target anchor, scene.Busy id → Hangs wide after id target anchor → Hangs scene after id target anchor) :
    Frame scene about before after := by
  have busy (id : NodeId) : scene.Busy id → wide.Busy id := Or.imp (opened id) (still id)
  refine ⟨first.steady.trans second.steady, first.grows.trans second.grows, fun id isBusy => (second.busy id (busy id isBusy)).trans (first.busy id isBusy),
    fun id isStill => (second.still id (still id isStill)).trans (first.still id isStill), fun id inside apart waits => ?_, fun effect needed live => ?_,
    second.roots.trans first.roots, ⟨List.Subset.trans first.effects.1 second.effects.1, fun effect member => ?_⟩, fun id effect keeps => ?_,
    fun id target anchor isBusy hangs => ?_, fun effect lingers => ?_⟩
  · refine (second.loose id (Nat.lt_of_lt_of_le inside first.grows.size) (fun isAbout => ?_) fun parent member => ?_).trans (first.loose id inside apart waits)
    · obtain isAbout | ⟨parent, member, moves⟩ := named id isAbout inside
      · exact apart isAbout
      · exact moves (waits parent member)
    · exact still parent (first.waiting inside waits parent member)
  · refine second.spared effect ((first.needed needed).imp (pending _) ?_) (first.spared effect needed live)
    exact fun ⟨id, isBusy, keeps⟩ => ⟨id, busy id isBusy, keeps⟩
  · obtain old | new := second.effects.2 effect member
    · exact first.effects.2 effect old
    · exact .inr (Nat.le_trans first.steady.size new)
  · obtain isPending | ⟨other, old⟩ | new := second.stock id effect keeps
    · exact stocked effect isPending
    · exact first.stock other effect old
    · exact .inr (.inr (Nat.le_trans first.steady.size new))
  · exact back id target anchor isBusy (second.hung id target anchor (busy id isBusy) ((first.hung id target anchor isBusy hangs).congr rfl stead wards))
  · exact (second.lingers effect lingers).elim (first.lingers effect) fun observes => .inr (first.steady.observer ▸ observes)

theorem trans (first : Frame scene about before middle) (second : Frame scene more middle after)
    (named : ∀ id, more id → id < before.nodes.size → about id ∨ ∃ parent, id ∈ kids before parent ∧ ¬ scene.still parent) :
    Frame scene about before after :=
  first.join second (fun _ opened => opened) (fun _ still => still) (fun _ pending => pending) named (fun _ => .inl) rfl (fun _ _ _ guarded => guarded)
    fun _ _ _ _ hangs => hangs

end Frame

end Rendering

end ReactiveMarkup
