import ReactiveMarkup.Proofs.SceneAnchors

/-! Whatever code does, it keeps trees tidy, however deep its calls nest, and so do directors. -/

namespace ReactiveMarkup.Rendering

open ReactiveMarkup.Step ReactiveMarkup.Graph ReactiveMarkup.Machine Tidy Stocked

variable {Memory : Type} {α β : Type} {scene : Scene} {before between machine after : Stage Memory} {id : NodeId} {effect : Nat} {task : Task (Code Memory)}
  {calls : Calls (Host.rendering Memory)} {target : Handle} {anchor : Anchor}

section

variable (keeps : KeepsScenes calls) (tidy : Tidy scene machine) (movable : Movable scene machine id)

include keeps tidy movable

theorem mounts_node (calm : Calm scene machine) (inside : id < machine.nodes.size) (off : ¬ On machine id) (hangs : Hangs scene machine id target anchor) :
    Ensures .any (Machine.mount calls id target anchor) machine fun _ after => Mounted scene id machine after := by
  rw [Machine.mount, ensures_node?]
  split
  next node found =>
    have isOff : node.handle.isSome = false := (not_on_iff found).1 off
    exact mounts_element keeps tidy movable found calm (by simpa using isOff) hangs
  next node found =>
    have isOff : node.handle.isSome = false := (not_on_iff found).1 off
    exact mounts_text keeps tidy movable calm found (by simpa using isOff) hangs
  next found => exact mounts_fragment keeps tidy movable calm found ((not_on_iff found).1 off) hangs
  next found => exact mounts_conditional keeps tidy movable found calm ((not_on_iff found).1 off) hangs
  next found => exact mounts_list keeps tidy movable found calm ((not_on_iff found).1 off) hangs
  next found => exact mounts_component keeps tidy movable calm found ((not_on_iff found).1 off) hangs
  next absent => exact absurd inside (Nat.not_lt.2 (Array.getElem?_eq_none_iff.1 absent))

theorem unmounts_node (hangs : ∃ anchor, Hangs scene machine id target anchor) : Ensures .any (Machine.unmount calls id target) machine fun _ after => Unmounted scene id machine after := by
  rw [Machine.unmount, ensures_node?]
  split
  next found => exact unmounts_element keeps tidy movable found hangs
  next found => exact unmounts_text keeps tidy movable found hangs
  next found => exact unmounts_fragment keeps tidy movable found hangs
  next found => exact unmounts_conditional keeps tidy movable found hangs
  next found => exact unmounts_list keeps tidy movable found hangs
  next found => exact unmounts_component keeps tidy movable found hangs
  next absent =>
    refine ⟨.refl tidy, fun on => ?_⟩
    obtain ⟨node, found, _⟩ := on
    cases absent.symm.trans found

end

/-- What the body of an effect does to the node that it is about. -/
theorem performs_task (keeps : KeepsScenes calls) (begins : Begins scene effect task machine) :
    Ensures .any (Machine.perform calls task) machine fun cleanup after => cleanup = none ∧ Performed scene effect task machine after := by
  obtain ⟨renders, formed, inBatch, observed, away, assigned, paused, tidy, primed, lodged⟩ := begins
  have live : machine.graph.IsLive effect := ⟨_, away, rfl⟩
  have quiet {step : Act Memory Unit} (performs : Ensures .any step machine fun _ after => Performed scene effect task machine after) :
      Ensures .any (step >>= fun _ => pure (none : Option (Code Memory))) machine fun cleanup after => cleanup = none ∧ Performed scene effect task machine after := by
    rw [ensures_bind]
    exact performs.mono fun _ _ performed => ⟨rfl, performed⟩
  have calm : Calm (scene.during task) machine := calm_of_inBatch inBatch
  cases task with
  | property name accessor handle =>
    rw [Machine.perform, ← LawfulMonad.bind_assoc]
    exact quiet (performs_property keeps inBatch live formed assigned tidy lodged)
  | classes sources handle => exact quiet (performs_classes keeps inBatch live formed assigned tidy lodged)
  | text node accessor => exact quiet (performs_text keeps inBatch live formed assigned (paused node rfl) tidy primed lodged)
  | branches node target anchor => exact quiet ((performs_branches keeps inBatch observed live assigned (paused node rfl) tidy primed lodged).mono fun _ _ => And.left)
  | items node target => exact quiet (performs_items keeps inBatch live assigned (paused node rfl) tidy primed lodged)
  | host code => exact renders.elim

/-! What the code of trees does. -/

section

variable (keeps : KeepsScenes calls) (tidy : Tidy scene machine)

include tidy

section

variable (calm : Calm scene machine)

include keeps calm

theorem strays_call (code : Code Memory) (arguments : List Value) :
    Ensures .any ((Interpreter.rendering Memory).call calls code arguments) machine fun _ after => Strays scene machine after := by
  cases code with
  | query query => exact strays_query keeps tidy query
  | script body =>
    show Ensures .any (Prod.fst <$> run calls (body (arguments.headD .undefined))) machine _
    rw [ensures_map]
    exact strays_run keeps _ tidy calm
  | item | view => trivial

theorem strays_react (code : Code Memory) :
    Ensures .any ((Interpreter.rendering Memory).react calls code) machine fun _ after => Strays scene machine after := by
  cases code with
  | script body =>
    show Ensures .any (run calls (body .undefined) >>= fun result => pure (result.2.map fun cleanup => Code.script fun _ => cleanup)) machine _
    rw [ensures_bind]
    exact (strays_run keeps _ tidy calm).mono fun _ _ strays => strays
  | query | item | view => trivial

theorem strays_control (code : Code Memory) (inputs : Inputs (Code Memory)) :
    Ensures .any ((Interpreter.rendering Memory).control calls code inputs) machine fun _ after => Strays scene machine after := by
  cases code with
  | script body =>
    show Ensures .any (Prod.fst <$> run calls (body .undefined)) machine _
    rw [ensures_map]
    exact strays_run keeps _ tidy calm
  | query | item | view => trivial

end

theorem brings_tree (tree : Tree Memory) : Ensures .any tree.build machine fun child after => Brings scene machine after child := by
  obtain ⟨child, after, ran, makes⟩ := makes_tree tree machine tidy
  unfold Ensures
  rw [ran]
  exact makes.brings (List.mem_singleton_self child)

theorem brings_build (calls : Calls (Host.rendering Memory)) (code : Code Memory) (arguments : List Value) :
    Ensures .any ((Interpreter.rendering Memory).build calls code arguments) machine fun child after => Brings scene machine after child := by
  cases code with
  | item each =>
    show Ensures .any (buildItem each arguments) machine _
    unfold buildItem
    split
    next id item rest =>
      rw [ensures_bind, ensures_get]
      split
      next => exact brings_tree tidy _
      next => trivial
    next => trivial
  | query | script | view => trivial

theorem yields_view (calls : Calls (Host.rendering Memory)) (code : Code Memory) (context : Value) (slots : Slots (Code Memory)) :
    Ensures .any ((Interpreter.rendering Memory).view calls code context slots) machine fun child after =>
      Yields scene (fun _ => False) machine after ∧ ∀ made ∈ child, Brings scene machine after made := by
  cases code with
  | view shows =>
    obtain ⟨child, after, ran, makes⟩ := makes_optional (shows context) machine tidy
    show Ensures .any (buildOptional (shows context)) machine _
    unfold Ensures
    rw [ran]
    exact ⟨makes.yields, fun made member => makes.brings (Option.mem_toList.2 member)⟩
  | query | script | item => trivial

end

/-- Trees are kept tidy however deep the calls nest. -/
theorem keepsScenes_upTo (depth : Nat) : KeepsScenes (Calls.upTo (Interpreter.rendering Memory) depth) := by
  induction depth with
  | zero =>
    refine ⟨keepsTrees_upTo 0, ?_, ?_, ?_, ?_, ?_, ?_, ?_, ?_, ?_, ?_, ?_⟩ <;> intros <;> trivial
  | succ depth keeps =>
    exact ⟨keepsTrees_upTo _, fun code arguments _ _ tidy calm => strays_call keeps tidy calm code arguments, fun code _ _ tidy calm => strays_react keeps tidy calm code,
      fun code inputs _ _ tidy calm => strays_control keeps tidy calm code inputs, fun code arguments _ _ tidy => brings_build tidy (Calls.upTo (Interpreter.rendering Memory) depth) code arguments,
      fun code context slots _ _ tidy => yields_view tidy (Calls.upTo (Interpreter.rendering Memory) depth) code context slots, fun code _ _ tidy calm => keeps.react code tidy calm,
      fun task effect _ _ begins => performs_task keeps begins,
      fun tidy calm => strays_drained keeps tidy calm depth, fun _ _ _ _ _ tidy calm movable inside off hangs => mounts_node keeps tidy movable calm inside off hangs,
      fun _ _ _ _ _ tidy clear hangs => bears_elements keeps tidy clear hangs, fun _ _ _ _ tidy movable hangs => unmounts_node keeps tidy movable hangs⟩

/-! Directors. -/

section

variable {stead : Option Stead}

/-- Nothing is busy where no step is under way. -/
theorem not_busy_resting : ¬ (Scene.resting stead).Busy id := fun busy => busy.elim False.elim False.elim

theorem calm_resting : Calm (.resting stead) machine := fun _ _ => False.elim

/-- What mounts nodes from outside may mount any root. -/
theorem Tidy.movable_root (tidy : Tidy (.resting stead) machine) (isRoot : id ∈ machine.world.roots) : Movable (.resting stead) machine id :=
  ⟨fun _ _ => not_busy_resting, fun parent member => absurd member ((tidy.arranged.roots id isRoot).2 parent)⟩

end

/-- A new node becomes a root. -/
theorem Tidy.root (tidy : Tidy scene machine) (adrift : scene.stead = none) (spare : Spare scene machine id) (inside : id < machine.nodes.size) :
    Tidy scene { machine with world := { machine.world with roots := id :: machine.world.roots } } := by
  obtain ⟨upright, ⟨unique, distinct, roots, within, upward, settled⟩, stocked, driven, _⟩ := tidy
  have nodes : ({ machine with world := { machine.world with roots := id :: machine.world.roots } } : Stage Memory).nodes = machine.nodes := rfl
  refine ⟨upright.carry rfl rfl, ⟨unique, distinct, fun root isRoot => ?_, within, upward, fun other node found rests => ?_⟩, ⟨stocked.apart, stocked.loose, stocked.tame, stocked.scripts⟩,
    ⟨fun effect task drives => ?_, driven.sole⟩, fun stead here => ?_⟩
  · obtain rfl | old := List.mem_cons.1 isRoot
    · exact ⟨inside, spare.unclaimed⟩
    · exact roots root old
  · exact (settled other node found rests).carry nodes fun _ _ drives _ _ => drives
  · obtain ⟨kept, paused, governs⟩ := driven.steers effect task drives
    have attends : machine.graph.Attends (fun _ => False) machine.graph := .refl _
    exact ⟨kept, paused, governs.of_attends nodes attends (fun never => never) drives.isLive (machine.graph.lt_size_of_content? drives.content?.choose_spec.1)⟩
  · cases adrift.symm.trans here

/-- A director that makes no trees, and mounts and unmounts none but one, always at the same place. -/
def Director.Tends (root : NodeId) (target : Handle) (place : Option Handle) : Director Memory → Prop
  | .finish => True
  | .run _ next => ∀ value, (next value).Tends root target place
  | .make _ _ => False
  | .mount other home spot next => (other = root ∧ home = target ∧ spot = place) ∧ next.Tends root target place
  | .unmount other home next => (other = root ∧ home = target) ∧ next.Tends root target place
  | .batch body next => body.Tends root target place ∧ next.Tends root target place

/-- What a director leaves behind: trees are tidy, outside of batches nothing waits, and what comes to be over has no
sources. -/
structure Led (scene : Scene) (before after : Stage Memory) : Prop where
  tidy : Tidy scene after
  steady : before.graph.Steady after.graph
  idle : before.graph.depth = 0 → before.graph.queue = [] → after.graph.queue = []
  lingers : ∀ effect, Lingers after effect → Lingers before effect ∨ before.graph.observer = some effect

namespace Led

theorem depth (led : Led scene before after) : after.graph.depth = before.graph.depth := led.steady.depth

theorem trans (first : Led scene before between) (second : Led scene between after) : Led scene before after :=
  ⟨second.tidy, first.steady.trans second.steady, fun closed empty => second.idle (first.depth.trans closed) (first.idle closed empty),
    fun effect lingers => (second.lingers effect lingers).elim (first.lingers effect) fun observes => .inr (first.steady.observer ▸ observes)⟩

theorem refl (tidy : Tidy scene machine) : Led scene machine machine := ⟨tidy, .refl _, fun _ empty => empty, fun _ => .inl⟩

end Led

theorem Underway.led {about : NodeId → Prop} (underway : Yields scene about before after) : Led scene before after :=
  ⟨underway.tidy, underway.frame.steady, underway.idle, underway.frame.lingers⟩

theorem ensures_isMounted {breaks : Breaks} {post : Bool → Stage Memory → Prop} (done : ∀ mounted, (mounted = true ↔ On machine id) → post mounted machine) :
    Ensures breaks (Machine.isMounted id) machine post := by
  rw [Machine.isMounted, ensures_node?]
  split
  next node found => exact done _ (on_iff found).symm
  next node found => exact done _ (on_iff found).symm
  next found => exact done _ (on_iff found).symm
  next found => exact done _ (on_iff found).symm
  next found => exact done _ (on_iff found).symm
  next found => exact done _ (on_iff found).symm
  next absent =>
    refine done false (iff_of_false Bool.false_ne_true fun on => ?_)
    obtain ⟨node, found, _⟩ := on
    cases absent.symm.trans found

/-- Directors keep trees tidy. One that tends a tree keeps it in its place. -/
theorem led_director (keeps : KeepsScenes calls) (director : Director Memory) (place : Option Handle) {stead : Option Stead} {machine : Stage Memory}
    (tidy : Tidy (.resting stead) machine) (tends : ∀ here, stead = some here → director.Tends here.root here.target place ∧ here.place = place.elim .front .fixed) :
    Ensures .any (director.perform calls) machine fun _ after => Led (.resting stead) machine after := by
  induction director generalizing machine with
  | finish => exact .refl tidy
  | run script next ih =>
    rw [Director.perform, ensures_bind]
    refine (strays_run keeps script tidy calm_resting).mono fun result between strays => ?_
    exact (ih result.1 strays.tidy fun here isHere => (tends here isHere).imp_left fun all => all result.1).mono fun _ _ led => strays.toUnderway.led.trans led
  | make tree next ih =>
    have adrift : stead = none := Option.eq_none_iff_forall_ne_some.2 fun here isHere => (tends here isHere).1
    rw [Director.perform, ensures_bind]
    refine (brings_tree tidy tree).mono fun root made brings => ?_
    have rooted := brings.yields.tidy.root adrift brings.spare brings.fresh.2
    have led : Led (.resting stead) made { made with world := { made.world with roots := root :: made.world.roots } } := ⟨rooted, .refl _, fun _ empty => empty, fun _ => .inl⟩
    show Ensures .any ((next root).perform calls) { made with world := { made.world with roots := root :: made.world.roots } } _
    refine (ih root rooted fun here isHere => ?_).mono fun _ _ later => (brings.yields.led.trans led).trans later
    cases adrift.symm.trans isHere
  | mount root target spot next ih =>
    have hangs : Hangs (.resting stead) machine root target (spot.elim .front .fixed) := by
      cases isHere : stead with
      | none => exact .adrift rfl
      | some here =>
        obtain ⟨⟨⟨rfl, rfl, rfl⟩, _⟩, place⟩ := tends here isHere
        exact place ▸ .root rfl
    have goes (isRoot : root ∈ machine.world.roots) (off : ¬ On machine root) :
        Ensures .any (calls.mount root target (spot.elim .front .fixed) >>= fun _ => next.perform calls) machine fun _ after => Led (.resting stead) machine after := by
      rw [ensures_bind]
      refine (keeps.mount root target _ tidy calm_resting (tidy.movable_root isRoot) (tidy.arranged.roots root isRoot).1 off hangs).mono fun _ between mounted => ?_
      exact (ih mounted.1.tidy fun here isHere => (tends here isHere).imp_left And.right).mono fun _ _ led => mounted.1.led.trans led
    rw [Director.perform, ensures_bind, ensures_get, ensures_bind]
    refine ensures_isMounted fun mounted isOn => ?_
    dsimp only
    split
    next => trivial
    next known =>
      simp only [Bool.or_eq_true, Bool.not_eq_true', not_or, Bool.not_eq_false, List.contains_iff_mem] at known
      exact goes known.1 fun on => known.2 (isOn.2 on)
  | unmount root target next ih =>
    have hangs : ∃ anchor, Hangs (.resting stead) machine root target anchor := by
      cases isHere : stead with
      | none => exact ⟨.front, .adrift rfl⟩
      | some here =>
        obtain ⟨⟨⟨rfl, rfl⟩, _⟩, _⟩ := tends here isHere
        exact ⟨here.place, .root rfl⟩
    rw [Director.perform, ensures_bind, ensures_get]
    dsimp only
    split
    next => trivial
    next known =>
      have isRoot : root ∈ machine.world.roots := by simpa using known
      rw [ensures_bind]
      refine (keeps.unmount root target tidy (tidy.movable_root isRoot) hangs).mono fun _ between unmounted => ?_
      exact (ih unmounted.1.tidy fun here isHere => (tends here isHere).imp_left And.right).mono fun _ _ led => unmounted.1.led.trans led
  | batch body next ihBody ih =>
    rw [Director.perform, ensures_bind]
    simp only [Machine.batch, ensures_bind, ensures_withBatch, ensures_pure]
    refine (ihBody tidy.enterBatch fun here isHere => (tends here isHere).imp_left And.left).mono fun _ between inside => ?_
    have left : machine.graph.Steady (between.graph.leaveBatch false) := steady_left inside.steady
    have lingering (effect : Nat) : Lingers { between with graph := between.graph.leaveBatch false } effect ↔ Lingers between effect := by
      rw [leaveBatch_false]
      rfl
    refine (keeps.flush inside.tidy.leaveBatch calm_resting).mono fun _ flushed idle => ?_
    obtain ⟨strays, drained⟩ := idle
    have led : Led (.resting stead) machine flushed := by
      refine ⟨strays.tidy, left.trans strays.toUnderway.frame.steady, fun closed _ => drained (left.depth.trans closed), fun effect lingers => ?_⟩
      obtain lingers | observes := strays.toUnderway.frame.lingers effect lingers
      · exact inside.lingers effect ((lingering effect).1 lingers)
      · exact .inr (left.observer ▸ observes)
    exact (ih strays.tidy fun here isHere => (tends here isHere).imp_left And.right).mono fun _ _ later => led.trans later

theorem tidy_start (memory : Memory) (document : Document (Listener (Code Memory))) : Tidy .empty (Rendering.start memory document) := by
  have absent (id : Nat) : (Rendering.start memory document).graph.content? id = none := by simp [Rendering.start, content?]
  have empty (id : NodeId) : (Rendering.start memory document).nodes[id]? = none := by simp [Rendering.start]
  have bare (id kid : NodeId) : kid ∉ kids (Rendering.start memory document) id := by
    rw [kids, empty]
    exact List.not_mem_nil
  have nothing (effect : Nat) (task : Task (Code Memory)) : ¬ Drives (Rendering.start memory document).graph effect task := by
    rintro ⟨_, found, _⟩
    rw [absent] at found
    cases found
  have keepsNothing (id : NodeId) (disposable : Disposable) : ¬ Keeps (Rendering.start memory document) id disposable := by
    rintro ⟨_, found, _⟩
    rw [empty] at found
    cases found
  refine ⟨upright_start memory document, ⟨fun parent _ kid member => absurd member (bare parent kid), fun parent => ?_, fun root member => absurd member List.not_mem_nil, fun _ busy => absurd busy not_busy_resting,
    fun _ => False.elim, fun id node found => ?_⟩, ⟨fun first _ effect isKept => absurd isKept (keepsNothing first _), fun _ => False.elim, fun effect stock => ?_, fun effect member => absurd member List.not_mem_nil⟩,
    ⟨fun effect task drives => absurd drives (nothing effect task), fun first _ task _ _ drives => absurd drives (nothing first task)⟩,
    fun _ here => by cases here⟩
  · rw [List.eq_nil_iff_forall_not_mem.2 (bare parent)]
    exact List.nodup_nil
  · cases (empty id).symm.trans found
  · obtain isPending | ⟨id, isKept⟩ := stock
    · exact isPending.elim
    · exact absurd isKept (keepsNothing id _)

/-- A director that starts where nothing is mounted anywhere in particular. -/
theorem led_director_empty (keeps : KeepsScenes calls) (director : Director Memory) (tidy : Tidy .empty machine) :
    Ensures .any (director.perform calls) machine fun _ after => Led .empty machine after := led_director keeps director none tidy nofun

/-- What holds between directors: trees are tidy, nothing waits, runs or observes, and what is over has no sources. -/
structure AtRest (stead : Option Stead) (machine : Stage Memory) : Prop where
  tidy : Tidy (.resting stead) machine
  closed : machine.graph.depth = 0
  queue : machine.graph.queue = []
  observer : machine.graph.observer = none
  loose : ∀ effect, ¬ Lingers machine effect
  bodied : ∀ effect record, machine.graph.content? effect = some (.effect record) → record.disposed = false → record.body.isSome = true

theorem AtRest.led {stead : Option Stead} (rests : AtRest stead before) (led : Led (.resting stead) before after) : AtRest stead after := by
  refine ⟨led.tidy, led.depth.trans rests.closed, led.idle rests.closed rests.queue, led.steady.observer.trans rests.observer, fun effect lingers => ?_, fun effect record found awake => ?_⟩
  · obtain lingered | observes := led.lingers effect lingers
    · exact rests.loose effect lingered
    · cases rests.observer.symm.trans observes
  · obtain ⟨earlier, was⟩ | ⟨_, hasBody⟩ := led.steady.created effect record found
    · obtain ⟨again, foundAgain, kept⟩ := led.steady.effects effect earlier was
      cases found.symm.trans foundAgain
      obtain ⟨wasAwake, body⟩ := kept awake
      exact body ▸ rests.bodied effect earlier was wasAwake
    · exact hasBody awake

theorem atRest_start (memory : Memory) (document : Document (Listener (Code Memory))) : AtRest none (Rendering.start memory document) := by
  have absent (id : Nat) : (Rendering.start memory document).graph.content? id = none := by simp [Rendering.start, content?]
  refine ⟨tidy_start memory document, rfl, rfl, rfl, ?_, fun effect record found => ?_⟩
  · rintro effect ⟨record, found, _⟩
    cases (absent effect).symm.trans found
  · cases (absent effect).symm.trans found

theorem Director.Reached.atRest (reached : Director.Reached machine) : AtRest none machine := by
  induction reached with
  | start memory document => exact atRest_start memory document
  | @perform _ _ director depth _ done ih => exact ih.led ((led_director_empty (keepsScenes_upTo depth) director ih.tidy).of_done done)

end ReactiveMarkup.Rendering
