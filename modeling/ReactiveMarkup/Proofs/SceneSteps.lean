import ReactiveMarkup.Proofs.Scenes

/-! Steps beside the trees. They change neither nodes nor what effects of nodes there are, and an effect that has read
something waits or would read the same again. -/

namespace ReactiveMarkup

namespace Graph

variable {Code Body : Type} {odd more : Nat → Prop} {before middle after graph : Graph Code Body}

theorem Steady.isLive_before (steady : before.Steady after) {id : Nat} (live : after.IsLive id) (old : id < before.vertices.size) :
    before.IsLive id := by
  obtain ⟨effect, found, awake⟩ := live
  obtain ⟨earlier, was⟩ | ⟨new, _⟩ := steady.created id effect found
  · obtain ⟨later, again, kept⟩ := steady.effects id earlier was
    cases found.symm.trans again
    exact ⟨earlier, was, (kept awake).1⟩
  · exact absurd old (Nat.not_lt.2 new)

/-- What a change does for the effects that are there before and after it, with possible exceptions: those that wait go
on waiting, and the others wait now or read what they have read. -/
structure Attends (odd : Nat → Prop) (before after : Graph Code Body) : Prop where
  waits : ∀ id, ¬ odd id → after.IsLive id → id < before.vertices.size → id ∈ before.queue → id ∈ after.queue
  minds : ∀ id, ¬ odd id → after.IsLive id → id < before.vertices.size → id ∈ after.queue ∨
    (before.sources id ⊆ after.sources id ∧ ∀ cell ∈ before.sources id, ∀ value, before.current? cell = some value → after.current? cell = some value)

namespace Attends

theorem of_same (queue : before.queue ⊆ after.queue) (sources : ∀ id, ¬ odd id → before.sources id ⊆ after.sources id)
    (current : ∀ cell value, before.current? cell = some value → after.current? cell = some value) : Attends odd before after :=
  ⟨fun _ _ _ _ member => queue member, fun id usual _ _ => .inr ⟨sources id usual, fun cell _ value => current cell value⟩⟩

theorem refl (graph : Graph Code Body) : Attends odd graph graph :=
  .of_same (fun _ member => member) (fun _ _ _ member => member) fun _ _ holds => holds

/-- One change after another. Exceptions from the second may be new members. -/
theorem trans (first : Attends odd before middle) (second : Attends more middle after) (steady : before.Steady middle) (later : middle.Steady after)
    (inside : ∀ id, more id → odd id ∨ before.vertices.size ≤ id) : Attends odd before after := by
  have usual {id : Nat} (usual : ¬ odd id) (old : id < before.vertices.size) : ¬ more id := fun isMore =>
    (inside id isMore).elim usual (Nat.not_le.2 old)
  have between {id : Nat} (live : after.IsLive id) (old : id < before.vertices.size) : middle.IsLive id :=
    later.isLive_before live (Nat.lt_of_lt_of_le old steady.size)
  refine ⟨fun id isUsual live old member => ?_, fun id isUsual live old => ?_⟩
  · exact second.waits id (usual isUsual old) live (Nat.lt_of_lt_of_le old steady.size) (first.waits id isUsual (between live old) old member)
  · obtain waits | ⟨more, same⟩ := first.minds id isUsual (between live old) old
    · exact .inl (second.waits id (usual isUsual old) live (Nat.lt_of_lt_of_le old steady.size) waits)
    · refine (second.minds id (usual isUsual old) live (Nat.lt_of_lt_of_le old steady.size)).imp_right fun ⟨moreLater, sameLater⟩ => ⟨?_, ?_⟩
      · exact List.Subset.trans more moreLater
      · exact fun cell member value holds => sameLater cell (more member) value (same cell member value holds)

theorem mono {wider : Nat → Prop} (attends : Attends odd before after) (includes : ∀ id, odd id → wider id) : Attends wider before after :=
  ⟨fun id usual => attends.waits id fun isOdd => usual (includes id isOdd), fun id usual => attends.minds id fun isOdd => usual (includes id isOdd)⟩

/-- A write makes whatever has read the signal wait. -/
theorem write (symmetric : graph.Symmetric) (cell : Nat) (value : Value) : Attends odd graph (graph.write cell value) := by
  have notified := notified_write symmetric cell value
  refine ⟨fun id _ _ _ member => notified.queue member, fun id _ live _ => ?_⟩
  by_cases told : (graph.write cell value).Told id
  · exact .inl (told.2 live)
  · obtain ⟨sources, _, contents⟩ := untold_write symmetric told
    refine .inr ⟨fun source member => sources ▸ member, fun source member held holds => ?_⟩
    exact (current?_congr (contents source member)).trans holds

end Attends

end Graph

namespace Rendering

open ReactiveMarkup.Step ReactiveMarkup.Graph ReactiveMarkup.Machine

variable {Memory : Type} {odd more about : Nat → Prop} {scene : Scene} {before middle after machine : Stage Memory}

/-- An effect waits, or the first true test is what it was when it looked. -/
theorem current_of_attends {graph later : Web Memory} (attends : graph.Attends odd later) {effect : Nat} (usual : ¬ odd effect)
    (live : later.IsLive effect) (old : effect < graph.vertices.size) {index : Nat} {tests : List (Accessor (Code Memory))} {selection : Selection}
    (current : effect ∈ graph.queue ∨ FirstTrue (Minded graph effect) index tests selection) :
    effect ∈ later.queue ∨ FirstTrue (Minded later effect) index tests selection := by
  obtain waits | first := current
  · exact .inl (attends.waits effect usual live old waits)
  · refine (attends.minds effect usual live old).imp_right fun ⟨sources, same⟩ => first.mono ?_
    rintro test value ⟨query, rfl, reads⟩
    exact ⟨query, rfl, reads.mono sources same⟩

/-- What a step beside the trees does. Whatever happens to odd effects. -/
structure Aside (odd : Nat → Prop) (before after : Stage Memory) : Prop where
  nodes : after.nodes = before.nodes
  document : after.document = before.document
  roots : after.world.roots = before.world.roots
  kept : before.graph.Kept Task.Formed after.graph
  coherent : after.graph.Coherent Code.query?
  attends : before.graph.Attends odd after.graph
  /-- Only scripts' own effects are changed or disposed of. -/
  spared : ∀ id effect, ¬ odd id → id ∉ after.world.effects → before.graph.content? id = some (.effect effect) → effect.disposed = false →
    after.graph.content? id = some (.effect effect)
  hosted : ∀ id, before.graph.vertices.size ≤ id → ∀ task, ¬ Drives after.graph id task
  bodied : ∀ id effect later task, before.graph.content? id = some (.effect effect) → after.graph.content? id = some (.effect later) →
    later.body = some task → task.Renders → effect.body = some task
  effects : before.world.effects ⊆ after.world.effects
  added : ∀ id ∈ after.world.effects, id ∈ before.world.effects ∨ (before.graph.vertices.size ≤ id ∧ id < after.graph.vertices.size)
  lives : ∀ id, id ∉ after.world.effects → before.graph.IsLive id → after.graph.IsLive id
  lingers : ∀ id, Lingers after id → Lingers before id ∨ before.graph.observer = some id

abbrev Aside.plain (before after : Stage Memory) : Prop := Aside (fun _ => False) before after

/-- Effects keep their bodies. -/
theorem drives_before {graph later : Web Memory} (steady : graph.Steady later) {id : Nat} {task : Task (Code Memory)} (drives : Drives later id task)
    (old : id < graph.vertices.size) : Drives graph id task := by
  obtain ⟨effect, found, awake, body, renders⟩ := drives
  obtain ⟨earlier, was⟩ | ⟨new, _⟩ := steady.created id effect found
  · obtain ⟨again, foundAgain, kept⟩ := steady.effects id earlier was
    cases found.symm.trans foundAgain
    exact ⟨earlier, was, (kept awake).1, (kept awake).2 ▸ body, renders⟩
  · exact absurd old (Nat.not_lt.2 new)

namespace Aside

theorem refl (upright : Upright machine) : Aside odd machine machine :=
  ⟨rfl, rfl, rfl, .refl upright.fit, upright.coherent, .refl _, fun _ _ _ _ found _ => found,
    fun _ new _ drives => absurd (machine.graph.lt_size_of_content? drives.content?.choose_spec.1) (Nat.not_lt.2 new),
    fun _ _ _ _ found again body _ => by cases found.symm.trans again; exact body, fun _ member => member, fun _ member => .inl member,
    fun _ _ live => live, fun _ => .inl⟩

theorem drives_before (aside : Aside odd before after) {id : Nat} {task : Task (Code Memory)} (drives : Drives after.graph id task) :
    Drives before.graph id task := by
  by_cases old : id < before.graph.vertices.size
  · exact Rendering.drives_before aside.kept.steady drives old
  · exact absurd drives (aside.hosted id (Nat.le_of_not_lt old) task)

theorem trans (first : Aside odd before middle) (second : Aside more middle after) (inside : ∀ id, more id → odd id ∨ before.graph.vertices.size ≤ id) :
    Aside odd before after := by
  refine ⟨second.nodes.trans first.nodes, second.document.trans first.document, second.roots.trans first.roots, first.kept.trans second.kept, second.coherent,
    first.attends.trans second.attends first.kept.steady second.kept.steady inside, fun id effect usual apart found awake => ?_,
    fun id new task drives => first.hosted id new task (second.drives_before drives), fun id effect later task found again body renders => ?_,
    List.Subset.trans first.effects second.effects, fun id member => ?_,
    fun id apart live => second.lives id apart (first.lives id (fun member => apart (second.effects member)) live), fun id lingers => ?_⟩
  · have old := before.graph.lt_size_of_content? found
    have between := first.spared id effect usual (fun member => apart (second.effects member)) found awake
    exact second.spared id effect (fun isMore => (inside id isMore).elim usual (Nat.not_le.2 old)) apart between awake
  · obtain ⟨between, foundBetween, _⟩ := first.kept.steady.effects id effect found
    exact first.bodied id effect between task found foundBetween (second.bodied id between later task foundBetween again body renders) renders
  · obtain old | ⟨new, there⟩ := second.added id member
    · exact (first.added id old).imp_right fun ⟨new, there⟩ => ⟨new, Nat.lt_of_lt_of_le there second.kept.steady.size⟩
    · exact .inr ⟨Nat.le_trans first.kept.steady.size new, there⟩
  · exact (second.lingers id lingers).elim (first.lingers id) fun observes => .inr (first.kept.steady.observer ▸ observes)

theorem mono {wider : Nat → Prop} (aside : Aside odd before after) (includes : ∀ id, odd id → wider id) : Aside wider before after :=
  { aside with
    attends := aside.attends.mono includes
    spared := fun id effect usual => aside.spared id effect fun isOdd => usual (includes id isOdd) }

theorem upright (aside : Aside odd before after) (upright : Upright before) : Upright after := by
  have alters : Alters (fun _ => False) True before after := .of_nodes upright aside.nodes aside.kept aside.coherent
  exact alters.upright

theorem grows (aside : Aside odd before after) : Grows before after := by
  have same : kids after = kids before := funext fun id => by rw [kids, aside.nodes, kids]
  exact ⟨Nat.le_of_eq (congrArg Array.size aside.nodes.symm), fun id _ => by rw [aside.nodes], fun id kid member => .inl (same ▸ member)⟩

end Aside

section

variable (nodes : after.nodes = before.nodes)

include nodes

theorem kids_congr : kids after = kids before := funext fun id => by rw [kids, nodes, kids]

theorem below_congr : Below after = Below before := by
  funext parent kid
  rw [Below, Below, kids_congr nodes]

theorem on_congr (id : NodeId) : On after id ↔ On before id := by rw [On, nodes, On]

theorem keeps_congr (id : NodeId) (disposable : Disposable) : Keeps after id disposable ↔ Keeps before id disposable := by rw [Keeps, nodes, Keeps]

theorem filled_congr (node : Node (Code Memory)) : Filled after node ↔ Filled before node := by
  cases node <;> simp only [Filled, on_congr nodes]

theorem presents_congr (node : ConditionalNode (Code Memory)) : Presents after node ↔ Presents before node := by
  simp only [Presents, on_congr nodes]

theorem lists_congr (list : ListNode (Code Memory)) : Lists after list ↔ Lists before list := by
  constructor
  · rintro ⟨keyed, entries, empty, distinct, complete⟩
    exact ⟨keyed, fun entry member => (on_congr nodes _).1 (entries entry member), fun node member => (on_congr nodes _).symm.trans (empty node member), distinct, complete⟩
  · rintro ⟨keyed, entries, empty, distinct, complete⟩
    exact ⟨keyed, fun entry member => (on_congr nodes _).2 (entries entry member), fun node member => (on_congr nodes _).trans (empty node member), distinct, complete⟩

theorem Settled.carry {id : NodeId} {node : Node (Code Memory)} (settled : Settled before id node)
    (drives : ∀ effect task, Drives before.graph effect task → Keeps before id (.effect effect) → task.subject? = some id → Drives after.graph effect task) :
    Settled after id node := by
  refine ⟨fun off kid member on => settled.shut off kid member ((on_congr nodes kid).1 on), settled.bare,
    fun on => (filled_congr nodes node).2 (settled.filled on), fun on => ?_⟩
  have watched := settled.watched on
  cases node with
  | conditional =>
    obtain ⟨effect, target, anchor, keeps, isDriver⟩ := watched
    exact ⟨effect, target, anchor, (keeps_congr nodes id _).2 keeps, drives _ _ isDriver keeps rfl⟩
  | list =>
    obtain ⟨effect, target, keeps, isDriver⟩ := watched
    exact ⟨effect, target, (keeps_congr nodes id _).2 keeps, drives _ _ isDriver keeps rfl⟩
  | element | text | fragment | component => trivial

theorem Arranged.carry (arranged : Arranged scene before) (roots : after.world.roots = before.world.roots)
    (drives : ∀ effect task id, Drives before.graph effect task → Keeps before id (.effect effect) → task.subject? = some id → Drives after.graph effect task) :
    Arranged scene after := by
  have same := kids_congr nodes
  obtain ⟨unique, distinct, isRoot, inside, upward, settled⟩ := arranged
  refine ⟨?_, ?_, ?_, ?_, ?_, fun id node found rests => ?_⟩
  · rwa [same]
  · rwa [same]
  · rwa [roots, nodes, same]
  · rwa [nodes]
  · rwa [same]
  · exact (settled id node (nodes ▸ found) rests).carry nodes fun effect task => drives effect task id

theorem Clear.carry {id : NodeId} (clear : Clear scene before id) : Clear scene after id := by
  rw [Clear, below_congr nodes]
  exact clear

end

/-- What an effect says about its node holds as long as the nodes are the same and nothing that it has read has changed. -/
theorem Governs.of_attends (nodes : after.nodes = before.nodes) (attends : before.graph.Attends odd after.graph) {effect : Nat} (usual : ¬ odd effect)
    (live : after.graph.IsLive effect) (old : effect < before.graph.vertices.size) {task : Task (Code Memory)} (governs : Governs scene before effect task) :
    Governs scene after effect task := by
  cases task with
  | branches id target anchor =>
    obtain ⟨node, found, mounted, presents, selection, selected, active, current⟩ := governs
    refine ⟨node, nodes ▸ found, mounted, (presents_congr nodes node).2 presents, selection, selected, active, ?_⟩
    exact current_of_attends attends usual live old current
  | items id target =>
    obtain ⟨list, found, mounted, lists⟩ := governs
    exact ⟨list, nodes ▸ found, mounted, (lists_congr nodes list).2 lists⟩
  | text id accessor =>
    obtain ⟨node, found, shown⟩ := governs
    exact ⟨node, nodes ▸ found, shown⟩
  | property | classes | host => trivial

namespace Stocked

/-- Whether an effect is kept for a node. -/
def Stock (scene : Scene) (machine : Stage Memory) (effect : Nat) : Prop :=
  scene.pending (.effect effect) ∨ ∃ id, Keeps machine id (.effect effect)

end Stocked

namespace Tidy

open Stocked

/-- What drives a node is kept for one. -/
theorem stock_of_drives (tidy : Tidy scene machine) {effect : Nat} {task : Task (Code Memory)} (drives : Drives machine.graph effect task) :
    Stock scene machine effect :=
  (tidy.driven.steers effect task drives).kept.imp And.left fun ⟨id, keeps, _⟩ => ⟨id, keeps⟩

theorem lt_size_of_stock (tidy : Tidy scene machine) {effect : Nat} (stock : Stock scene machine effect) : effect < machine.graph.vertices.size := by
  obtain ⟨_, found, isEffect, _⟩ := tidy.stocked.tame effect stock
  exact machine.graph.lt_size_of_content? isEffect

theorem stock_of_needed {effect : Nat} (needed : Needed scene machine effect) : Stock scene machine effect :=
  needed.imp_right fun ⟨id, _, keeps⟩ => ⟨id, keeps⟩

/-- A change by which nodes and their effects are as they were, and these go on waiting or have nothing to wait for. -/
theorem recast (tidy : Tidy scene before) (upright : Upright after) (nodes : after.nodes = before.nodes) (roots : after.world.roots = before.world.roots)
    (back : ∀ effect task, Drives after.graph effect task → Drives before.graph effect task)
    (forth : ∀ effect task id, Drives before.graph effect task → Keeps before id (.effect effect) → task.subject? = some id → Drives after.graph effect task)
    (attends : before.graph.Attends odd after.graph) (usual : ∀ effect task, odd effect → ¬ Drives before.graph effect task)
    (tame : ∀ effect, Stock scene before effect → effect ∉ after.world.effects ∧
      ∃ found, after.graph.content? effect = some (.effect found) ∧ (found.disposed = false → found.cleanup = none ∧ ∀ task, found.body = some task → task.Renders))
    (scripts : ∀ effect ∈ after.world.effects, effect < after.graph.vertices.size ∧ ∀ task, ¬ Drives after.graph effect task)
    (placed : ∀ stead, scene.stead = some stead → Placed scene stead after) : Tidy scene after := by
  have keeps := keeps_congr nodes
  refine ⟨upright, tidy.arranged.carry nodes roots forth, ⟨?_, ?_, fun effect stock => ?_, scripts⟩,
    ⟨fun effect task isDriver => ?_, ?_⟩, placed⟩
  · simp only [keeps]
    exact tidy.stocked.apart
  · simp only [keeps]
    exact tidy.stocked.loose
  · simp only [keeps] at stock
    exact tame effect stock
  · have old := back effect task isDriver
    obtain ⟨kept, paused, governs⟩ := tidy.driven.steers effect task old
    refine ⟨kept.imp_right fun ⟨id, isKept, subjects⟩ => ⟨id, (keeps id _).2 isKept, subjects⟩, paused, ?_⟩
    · exact governs.of_attends nodes attends (fun isOdd => usual effect task isOdd old) isDriver.isLive
        (before.graph.lt_size_of_content? old.content?.choose_spec.1)
  · exact fun first second task other subject drives drivesToo => tidy.driven.sole first second task other subject (back _ _ drives) (back _ _ drivesToo)

/-- The same when the document does not change. -/
theorem regraph (tidy : Tidy scene before) (upright : Upright after) (nodes : after.nodes = before.nodes) (document : after.document = before.document)
    (roots : after.world.roots = before.world.roots)
    (back : ∀ effect task, Drives after.graph effect task → Drives before.graph effect task)
    (forth : ∀ effect task id, Drives before.graph effect task → Keeps before id (.effect effect) → task.subject? = some id → Drives after.graph effect task)
    (attends : before.graph.Attends odd after.graph) (usual : ∀ effect task, odd effect → ¬ Drives before.graph effect task)
    (tame : ∀ effect, Stock scene before effect → effect ∉ after.world.effects ∧
      ∃ found, after.graph.content? effect = some (.effect found) ∧ (found.disposed = false → found.cleanup = none ∧ ∀ task, found.body = some task → task.Renders))
    (scripts : ∀ effect ∈ after.world.effects, effect < after.graph.vertices.size ∧ ∀ task, ¬ Drives after.graph effect task) : Tidy scene after :=
  tidy.recast upright nodes roots back forth attends usual tame scripts fun stead here => (tidy.placed stead here).regraph nodes document roots fun effect task drives => .inl (back effect task drives)

/-- A change of the document that leaves the places as they were. -/
theorem redocument {machine : Stage Memory} {document : Document (Listener (Code Memory))} (tidy : Tidy scene machine)
    (placed : ∀ stead, scene.stead = some stead → Placed scene stead { machine with document }) : Tidy scene { machine with document } := by
  have attends : machine.graph.Attends (fun _ => False) machine.graph := .refl machine.graph
  exact tidy.recast (tidy.upright.carry rfl rfl) rfl rfl (fun _ _ drives => drives) (fun _ _ _ drives _ _ => drives) attends (fun _ _ never => never.elim)
    tidy.stocked.tame tidy.stocked.scripts placed

section

variable (tidy : Tidy scene before) (aside : Aside odd before after) (usual : ∀ effect, odd effect → ¬ Stock scene before effect)

include tidy aside

theorem not_mem_effects {effect : Nat} (stock : Stock scene before effect) : effect ∉ after.world.effects := fun member =>
  (aside.added effect member).elim (tidy.stocked.tame effect stock).1 fun new => absurd (tidy.lt_size_of_stock stock) (Nat.not_lt.2 new.1)

include usual

theorem drives_aside {effect : Nat} {task : Task (Code Memory)} : Drives after.graph effect task ↔ Drives before.graph effect task := by
  refine ⟨aside.drives_before, fun drives => ?_⟩
  have stock := tidy.stock_of_drives drives
  obtain ⟨found, isEffect, awake, body, renders⟩ := drives
  exact ⟨found, aside.spared effect found (fun isOdd => usual effect isOdd stock) (tidy.not_mem_effects aside stock) isEffect awake, awake, body, renders⟩

/-- Steps beside the trees keep them tidy. -/
theorem beside : Tidy scene after := by
  refine tidy.regraph (aside.upright tidy.upright) aside.nodes aside.document aside.roots (fun _ _ => (tidy.drives_aside aside usual).1)
    (fun _ _ _ drives _ _ => (tidy.drives_aside aside usual).2 drives) aside.attends
    (fun effect task isOdd drives => usual effect isOdd (tidy.stock_of_drives drives)) (fun effect stock => ?_) fun effect member => ?_
  · obtain ⟨_, found, isEffect, clean⟩ := tidy.stocked.tame effect stock
    have apart := tidy.not_mem_effects aside stock
    refine ⟨apart, ?_⟩
    cases awake : found.disposed with
    | false => exact ⟨found, aside.spared effect found (fun isOdd => usual effect isOdd stock) apart isEffect awake, clean⟩
    | true =>
      obtain ⟨later, isLater, kept⟩ := aside.kept.steady.effects effect found isEffect
      refine ⟨later, isLater, fun awakeLater => ?_⟩
      cases awake.symm.trans (kept awakeLater).1
  · obtain old | ⟨new, there⟩ := aside.added effect member
    · obtain ⟨inside, never⟩ := tidy.stocked.scripts effect old
      exact ⟨Nat.lt_of_lt_of_le inside aside.kept.steady.size, fun task isDriver => never task (aside.drives_before isDriver)⟩
    · exact ⟨there, aside.hosted effect new⟩

/-- What steps beside the trees leave to those around them. -/
theorem frame_aside : Frame scene about before after := by
  refine ⟨aside.kept.steady, aside.grows, fun id _ => by rw [aside.nodes], fun id _ => by rw [aside.nodes], fun id _ _ _ => on_congr aside.nodes id,
    fun effect needed live => ?_, aside.roots, ⟨aside.effects, fun effect member => (aside.added effect member).imp_right And.left⟩, fun id effect keeps => .inr (.inl ⟨id, ?_⟩),
    fun _ _ _ _ hangs => hangs.congr aside.nodes rfl fun _ _ _ guarded => guarded, aside.lingers⟩
  · have stock := stock_of_needed needed
    obtain ⟨found, isEffect, awake⟩ := live
    exact ⟨found, aside.spared effect found (fun isOdd => usual effect isOdd stock) (tidy.not_mem_effects aside stock) isEffect awake, awake⟩
  · exact (keeps_congr aside.nodes id _).1 keeps

end

end Tidy

end Rendering

end ReactiveMarkup
