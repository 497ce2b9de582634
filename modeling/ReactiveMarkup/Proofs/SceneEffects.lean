import ReactiveMarkup.Proofs.EffectRuns
import ReactiveMarkup.Proofs.SceneTrees

/-! Effects of nodes in a scene: while the body of one runs, it is held back, and afterwards it says again what it says
about its node. -/

namespace ReactiveMarkup

open ReactiveMarkup.Step

namespace Graph

variable {Code Body : Type} {graph after : Graph Code Body} {id : Nat} {body : Body}

theorem isLive_running (found : graph.content? id = some (.effect ⟨some body, none, false⟩)) (other : Nat) : (running graph id).IsLive other ↔ graph.IsLive other := by
  by_cases here : other = id
  · subst here
    exact ⟨fun _ => ⟨_, found, rfl⟩, fun _ => ⟨_, content?_running_self found, rfl⟩⟩
  · simp only [IsLive, content?_running_of_ne here]

theorem isLive_rested {observer : Option Nat} {effect : Effect Code Body} (found : after.content? id = some (.effect effect)) (other : Nat) :
    (rested after observer id body).IsLive other ↔ after.IsLive other := by
  by_cases here : other = id
  · subst here
    simp [IsLive, content?_rested_self found, found]
  · simp only [IsLive, content?_rested_of_ne here]

theorem size_running : (running graph id).vertices.size = graph.vertices.size := by
  rw [← size_release graph id]
  exact size_modifyEffect ..

theorem size_rested {observer : Option Nat} : (rested graph observer id body).vertices.size = graph.vertices.size :=
  (size_modifyEffect ..).trans (size_modifyEffect ..)

theorem current?_running (cell : Nat) (found : graph.content? id = some (.effect ⟨some body, none, false⟩)) : (running graph id).current? cell = graph.current? cell :=
  (sameCells_of_ne found (content?_running_self found) fun _ => content?_running_of_ne).current? cell

theorem current?_rested {observer : Option Nat} {effect : Effect Code Body} (found : graph.content? id = some (.effect effect)) (cell : Nat) :
    (rested graph observer id body).current? cell = graph.current? cell :=
  (sameCells_of_ne found (content?_rested_self found) fun _ => content?_rested_of_ne).current? cell

theorem Steady.rested {later : Effect Code Body} (steady : (running graph id).Steady after) (found : graph.content? id = some (.effect ⟨some body, none, false⟩))
    (foundLater : after.content? id = some (.effect later)) : graph.Steady (rested after graph.observer id body) := by
  obtain ⟨size, depth, _, effects, created, signals⟩ := steady
  rw [size_running] at size
  refine ⟨size_rested.symm ▸ size, depth.trans (depth_release ..), rfl, fun other effect isEffect => ?_, fun other effect isEffect => ?_, fun cell value signal => ?_⟩
  · by_cases here : other = id
    · subst here
      cases found.symm.trans isEffect
      exact ⟨_, content?_rested_self foundLater, fun _ => ⟨rfl, rfl⟩⟩
    · obtain ⟨last, foundLast, keeps⟩ := effects other effect ((content?_running_of_ne here).trans isEffect)
      exact ⟨last, (content?_rested_of_ne here).trans foundLast, keeps⟩
  · by_cases here : other = id
    · subst here
      exact .inl ⟨_, found⟩
    · obtain ⟨earlier, was⟩ | new := created other effect ((content?_rested_of_ne here).symm.trans isEffect)
      · exact .inl ⟨earlier, (content?_running_of_ne here).symm.trans was⟩
      · rw [size_running] at new
        exact .inr new
  · have apart {value : Value} {graph : Graph Code Body} {effect : Effect Code Body} (isEffect : graph.content? id = some (.effect effect))
        (signal : graph.content? cell = some (.signal value)) : cell ≠ id := by
      rintro rfl
      cases isEffect.symm.trans signal
    obtain ⟨last, foundLast⟩ := signals cell value ((content?_running_of_ne (apart found signal)).trans signal)
    exact ⟨last, (content?_rested_of_ne (apart foundLater foundLast)).trans foundLast⟩

theorem Attends.rested {later : Effect Code Body} (attends : Attends (fun _ => False) (running graph id) after)
    (found : graph.content? id = some (.effect ⟨some body, none, false⟩)) (foundLater : after.content? id = some (.effect later)) :
    Attends (· = id) graph (rested after graph.observer id body) := by
  have sources {other : Nat} (usual : other ≠ id) : (running graph id).sources other = graph.sources other := by rw [sources_running, if_neg usual]
  have queue : (running graph id).queue = graph.queue := queue_release ..
  have size : (running graph id).vertices.size = graph.vertices.size := size_running
  refine ⟨fun other usual live old member => ?_, fun other usual live old => ?_⟩
  · rw [← queue] at member
    rw [← size] at old
    exact attends.waits other (fun never => never) ((isLive_rested foundLater other).1 live) old member
  · rw [← size] at old
    obtain waits | ⟨more, same⟩ := attends.minds other (fun never => never) ((isLive_rested foundLater other).1 live) old
    · exact .inl waits
    · rw [sources usual] at more same
      refine .inr ⟨by rwa [sources_rested], fun cell member value holds => ?_⟩
      rw [current?_rested foundLater]
      exact same cell member value ((current?_running cell found).trans holds)

end Graph

namespace Machine

open ReactiveMarkup.Graph

variable {host : Host} {breaks : Breaks}

/-- The run of an effect that has nothing to clean up and leaves nothing. -/
theorem ensures_runEffect {calls : Calls host} {machine : Machine host} {id : Nat} {body : Task host.Code} {post : Unit → Machine host → Prop}
    (found : machine.graph.content? id = some (.effect ⟨some body, none, false⟩))
    (ran : Ensures breaks (calls.perform body) { machine with graph := running machine.graph id, held := body.parts ++ machine.held } fun cleanup after =>
      cleanup = none ∧ after.graph.content? id = some (.effect ⟨none, none, false⟩) ∧
        post () { after with graph := rested after.graph machine.graph.observer id body, held := machine.held }) :
    Ensures breaks (runEffect calls id) machine post := by
  have effect?_machine := machine.graph.effect?_eq_some.2 found
  have effect?_released : (machine.graph.release id).effect? id = some ⟨some body, none, false⟩ := (effect?_eq_some _).2 ((content?_release ..).trans found)
  simp only [runEffect, ensures_bind, ensures_graph?, effect?_machine, Bool.false_eq_true, if_false, ensures_modifyGraph, runCleanup,
    effect?_released, Option.bind_some, ensures_pure, ensures_after, ensures_observedBy, ensures_holding]
  refine ran.mono fun cleanup after ended => ?_
  obtain ⟨clean, self, done⟩ := ended
  subst clean
  have effect?_restored (observer : Option Nat) : ({ after.graph with observer }.modifyEffect id fun effect => { effect with body := some body }).effect? id =
      some ⟨some body, none, false⟩ :=
    (effect?_eq_some _).2 (content?_modifyEffect_self _ _ (show { after.graph with observer }.content? id = _ from self))
  simp only [settleCleanup, ensures_bind, ensures_graph?, effect?_restored, Option.map_some, Option.getD_some, Bool.false_eq_true, if_false, ensures_modifyGraph]
  rw [rested, ← observer_release machine.graph id] at done
  exact done

end Machine

namespace Rendering

open ReactiveMarkup.Graph ReactiveMarkup.Machine Tidy Stocked

variable {Memory : Type} {about : NodeId → Prop} {scene : Scene} {start before middle after machine : Stage Memory} {id effect : Nat}
  {task : Task (Code Memory)} {calls : Calls (Host.rendering Memory)}

theorem Upright.running (upright : Upright machine) {record : Effect (Code Memory) (Task (Code Memory))} (found : machine.graph.content? id = some (.effect record)) :
    Upright { machine with graph := running machine.graph id } := by
  have released : Upright { machine with graph := machine.graph.release id } :=
    by
    have alters : Alters (fun _ => False) True machine { machine with graph := machine.graph.release id } :=
      .changed upright (.release upright.fit id) (Coherent.release upright.coherent found)
    exact alters.upright
  have foundReleased : (machine.graph.release id).content? id = some (.effect record) := (content?_release ..).trans found
  exact (released.taken foundReleased).observe (content?_modifyEffect_self _ _ foundReleased)

section

variable {graph : Web Memory}

theorem drives_running {record : Effect (Code Memory) (Task (Code Memory))} (found : graph.content? id = some (.effect record)) (other : Nat) (body : Task (Code Memory)) :
    Drives (running graph id) other body ↔ Drives graph other body ∧ other ≠ id := by
  by_cases here : other = id
  · subst here
    refine ⟨fun ⟨record, again, _, isBody, _⟩ => ?_, fun ⟨_, never⟩ => absurd rfl never⟩
    cases (content?_running_self found).symm.trans again
    cases isBody
  · simp only [Drives, content?_running_of_ne here, ne_eq, here, not_false_eq_true, and_true]

theorem drives_rested (found : graph.content? id = some (.effect ⟨none, none, false⟩)) (renders : task.Renders) {observer : Option Nat} (other : Nat)
    (body : Task (Code Memory)) :
    Drives (rested graph observer id task) other body ↔ (other = id ∧ body = task) ∨ Drives graph other body := by
  by_cases here : other = id
  · subst here
    constructor
    · rintro ⟨record, again, _, isBody, _⟩
      cases (content?_rested_self found).symm.trans again
      exact .inl ⟨rfl, (Option.some.inj isBody).symm⟩
    · rintro (⟨_, rfl⟩ | ⟨record, again, _, isBody, _⟩)
      · exact ⟨_, content?_rested_self found, rfl, rfl, renders⟩
      · cases found.symm.trans again
        cases isBody
  · simp only [Drives, content?_rested_of_ne here, here, false_and, false_or]

end

/-- The node that an effect is about is there. -/
theorem Governs.lt_size (governs : Governs scene machine effect task) (isSubject : task.subject? = some id) : id < machine.nodes.size := by
  cases task with
  | branches =>
    cases isSubject
    obtain ⟨_, found, _⟩ := governs
    exact (Array.getElem?_eq_some_iff.1 found).1
  | items =>
    cases isSubject
    obtain ⟨_, found, _⟩ := governs
    exact (Array.getElem?_eq_some_iff.1 found).1
  | text =>
    cases isSubject
    obtain ⟨_, found, _⟩ := governs
    exact (Array.getElem?_eq_some_iff.1 found).1
  | property | classes | host => cases isSubject

/-- A node that rests is as its effect says. -/
theorem Governs.settled (governs : Governs scene machine effect task) (isSubject : task.subject? = some id) (rests : ¬ scene.Busy id)
    (isKept : Keeps machine id (.effect effect)) (drives : Drives machine.graph effect task) {node : Node (Code Memory)} (found : machine.nodes[id]? = some node) :
    Settled machine id node := by
  have mounted {node : Node (Code Memory)} (on : node.isOn = true) (filled : Filled machine node) (watched : Watched machine id node) : Settled machine id node := by
    have never {p : Prop} (off : node.isOn = false) : p := by cases on.symm.trans off
    exact ⟨never, never, fun _ => filled, fun _ => watched⟩
  cases task with
  | branches _ target anchor =>
    cases isSubject
    obtain ⟨node, again, on, _⟩ := governs
    cases again.symm.trans found
    exact mounted on trivial ⟨effect, target, anchor, isKept, drives⟩
  | items _ target =>
    cases isSubject
    obtain ⟨list, again, on | isOpened, _⟩ := governs
    · cases again.symm.trans found
      exact mounted on trivial ⟨effect, target, isKept, drives⟩
    · exact absurd (.inl isOpened) rests
  | text =>
    cases isSubject
    obtain ⟨node, again, on⟩ := governs
    cases again.symm.trans found
    exact mounted on trivial trivial
  | property | classes | host => cases isSubject

/-- What an effect of a node is about is where it belongs. -/
theorem Tidy.lodged (tidy : Tidy scene machine) (drives : Drives machine.graph effect task) : Lodged scene machine task := fun stead here =>
  ⟨(tidy.placed stead here).fits effect task drives, fun subject handle _ owns rests => (tidy.placed stead here).berthed subject handle owns rests⟩

/-- An effect of a node begins to run, and perhaps does not wait any more. -/
theorem Tidy.running {queue : List Nat} (tidy : Tidy scene machine) (drives : Drives machine.graph effect task)
    (waits : ∀ other ∈ machine.graph.queue, other ≠ effect → other ∈ queue) :
    Tidy (scene.during task) { machine with graph := running { machine.graph with queue } effect } := by
  obtain ⟨record, found, awake, body, renders⟩ := drives
  have drives : Drives machine.graph effect task := ⟨record, found, awake, body, renders⟩
  have foundPopped : Graph.content? { machine.graph with queue } effect = some (.effect record) := found
  have upright := tidy.upright
  have popped : Upright { machine with graph := { machine.graph with queue } } :=
    ⟨⟨upright.fit.symmetric, upright.fit.observing, upright.fit.bodies⟩, upright.coherent.of_vertices rfl, upright.observing, upright.formed, upright.known,
      upright.acyclic, upright.fair⟩
  have isDriver (other : Nat) (body : Task (Code Memory)) : Drives (Graph.running { machine.graph with queue } effect) other body ↔
      Drives machine.graph other body ∧ other ≠ effect := drives_running foundPopped other body
  have content {other : Nat} (apart : other ≠ effect) : (Graph.running { machine.graph with queue } effect).content? other = machine.graph.content? other :=
    content?_running_of_ne apart
  have attends : machine.graph.Attends (· = effect) (Graph.running { machine.graph with queue } effect) := by
    refine ⟨fun other usual _ _ member => ?_, fun other usual _ _ => .inr ⟨?_, fun cell _ value holds => ?_⟩⟩
    · rw [show (Graph.running { machine.graph with queue } effect).queue = queue from queue_release ..]
      exact waits other member usual
    · rw [sources_running, if_neg usual]
      exact fun _ member => member
    · have apart : cell ≠ effect := by
        rintro rfl
        simp [Graph.current?, found] at holds
      exact (current?_congr (content apart)).trans holds
  have steers := tidy.driven.steers effect task drives
  refine ⟨popped.running foundPopped, ⟨tidy.arranged.unique, tidy.arranged.distinct, tidy.arranged.roots, fun id busy => ?_,
    fun id isOpened parent member => .inl (tidy.arranged.upward id isOpened parent member), fun id node foundNode rests => ?_⟩,
    ⟨tidy.stocked.apart, tidy.stocked.loose, fun other stock => ?_, fun other member => ?_⟩, ⟨fun other body drivesToo => ?_, ?_⟩,
    fun stead here => ?_⟩
  · obtain isOpened | isStill | isSubject := busy
    · exact tidy.arranged.inside id (.inl isOpened)
    · exact tidy.arranged.inside id (.inr isStill)
    · exact steers.governs.lt_size isSubject
  · refine Settled.carry ?_ (tidy.arranged.settled id node foundNode fun busy => rests (busy.imp_right .inl)) fun other body drivesOther _ isSubject => ?_
    · rfl
    refine (isDriver other body).2 ⟨drivesOther, ?_⟩
    rintro rfl
    cases drivesOther.unique drives
    exact rests (.inr (.inr isSubject))
  · obtain ⟨apart, kept, isKept, clean⟩ := tidy.stocked.tame other stock
    refine ⟨apart, ?_⟩
    by_cases here : other = effect
    · subst here
      cases found.symm.trans isKept
      exact ⟨_, content?_running_self foundPopped, fun awake => ⟨(clean awake).1, fun _ never => by cases never⟩⟩
    · exact ⟨kept, (content here).trans isKept, clean⟩
  · obtain ⟨inside, never⟩ := tidy.stocked.scripts other member
    refine ⟨?_, fun body drivesToo => never body ((isDriver other body).1 drivesToo).1⟩
    rw [show (Graph.running { machine.graph with queue } effect).vertices.size = machine.graph.vertices.size from size_running]
    exact inside
  · obtain ⟨old, apart⟩ := (isDriver other body).1 drivesToo
    obtain ⟨kept, paused, governs⟩ := tidy.driven.steers other body old
    have governsLater : Governs (scene.during task) machine other body := governs.rescene fun _ _ => .inl
    have inside : other < machine.graph.vertices.size := machine.graph.lt_size_of_content? old.content?.choose_spec.1
    refine ⟨kept, fun subject isSubject => ?_, governsLater.of_attends ?_ attends ?_ drivesToo.isLive inside⟩
    rotate_left
    · rfl
    · exact apart
    rintro (isStill | same)
    · exact paused subject isSubject isStill
    · exact apart (tidy.driven.sole other effect body task subject old drives isSubject same)
  · exact fun first second task other subject drives drivesToo =>
      tidy.driven.sole first second task other subject ((isDriver _ _).1 drives).1 ((isDriver _ _).1 drivesToo).1
  · have paused : Placed (scene.during task) stead machine :=
      (tidy.placed stead here).rescene rfl (fun _ _ _ => Iff.rfl) (fun _ _ _ rests busy => absurd (busy.imp_right .inl) rests) fun _ _ => .inl
    exact paused.regraph rfl rfl rfl fun other body drivesToo => .inl ((isDriver other body).1 drivesToo).1

/-- An effect of a node has run, and says again what it says about the node. -/
theorem Tidy.rested {observer : Option Nat} (tidy : Tidy (scene.during task) machine) (found : machine.graph.content? effect = some (.effect ⟨none, none, false⟩))
    (renders : task.Renders) (upright : Upright { machine with graph := Graph.rested machine.graph observer effect task })
    (kept : Assigned scene machine effect task)
    (paused : ∀ subject, task.subject? = some subject → ¬ scene.still subject)
    (lone : ∀ subject, task.subject? = some subject → ∀ kid ∈ kids machine subject, ¬ scene.opened kid)
    (governs : Governs scene machine effect task) (lodged : Lodged scene machine task) : Tidy scene { machine with graph := Graph.rested machine.graph observer effect task } := by
  have isDriver (other : Nat) (body : Task (Code Memory)) : Drives (Graph.rested machine.graph observer effect task) other body ↔
      (other = effect ∧ body = task) ∨ Drives machine.graph other body := drives_rested found renders other body
  have drives : Drives (Graph.rested machine.graph observer effect task) effect task := (isDriver effect task).2 (.inl ⟨rfl, rfl⟩)
  have attends : machine.graph.Attends (fun _ => False) (Graph.rested machine.graph observer effect task) :=
    .of_same (fun _ member => member) (fun other _ => by rw [sources_rested]; exact fun _ member => member) fun cell value holds =>
      (current?_rested found cell).trans holds
  have later {other : Nat} {body : Task (Code Memory)} (governs : Governs scene machine other body) (drives : Drives (Graph.rested machine.graph observer effect task) other body) :
      Governs scene { machine with graph := Graph.rested machine.graph observer effect task } other body := by
    have inside := Graph.lt_size_of_content? _ drives.content?.choose_spec.1
    rw [size_rested] at inside
    refine governs.of_attends ?_ attends (fun never => never) ?_ inside
    · rfl
    · exact drives.isLive
  have asleep (other : Nat) (body : Task (Code Memory)) (drivesOther : Drives machine.graph other body) (subject : NodeId) (isSubject : body.subject? = some subject) :
      task.subject? ≠ some subject := fun same => (tidy.driven.steers other body drivesOther).paused subject isSubject (.inr same)
  refine ⟨upright, ⟨tidy.arranged.unique, tidy.arranged.distinct, tidy.arranged.roots, fun id busy => tidy.arranged.inside id (busy.imp_right .inl),
    fun id isOpened parent member => ?_, fun id node foundNode rests => ?_⟩, ⟨tidy.stocked.apart, tidy.stocked.loose, fun other stock => ?_, fun other member => ?_⟩,
    ⟨fun other body drivesToo => ?_, ?_⟩, fun stead here => ?_⟩
  · obtain isStill | isSubject := tidy.arranged.upward id isOpened parent member
    · exact isStill
    · exact absurd isOpened (lone parent isSubject id member)
  · by_cases isSubject : task.subject? = some id
    · have isKept : Keeps machine id (.effect effect) := by
        obtain ⟨_, subjects⟩ | ⟨keeper, isKept, subjects⟩ := kept
        · exact absurd (.inl (subjects id isSubject)) rests
        · exact subjects id isSubject ▸ isKept
      exact (later governs drives).settled isSubject rests isKept drives foundNode
    · refine Settled.carry ?_ (tidy.arranged.settled id node foundNode ?_) fun other body drivesOther _ _ => (isDriver other body).2 (.inr drivesOther)
      · rfl
      rintro (isOpened | isStill | never)
      · exact rests (.inl isOpened)
      · exact rests (.inr isStill)
      · exact isSubject never
  · obtain ⟨apart, record, isRecord, clean⟩ := tidy.stocked.tame other stock
    refine ⟨apart, ?_⟩
    by_cases here : other = effect
    · subst here
      refine ⟨_, content?_rested_self found, fun _ => ⟨rfl, fun body isBody => ?_⟩⟩
      cases isBody
      exact renders
    · exact ⟨record, (content?_rested_of_ne here).trans isRecord, clean⟩
  · obtain ⟨inside, never⟩ := tidy.stocked.scripts other member
    refine ⟨size_rested.symm ▸ inside, fun body drivesToo => ?_⟩
    obtain ⟨rfl, rfl⟩ | old := (isDriver other body).1 drivesToo
    · have stock : Stock (scene.during body) machine other := kept.imp And.left fun ⟨id, isKept, _⟩ => ⟨id, isKept⟩
      exact (tidy.stocked.tame other stock).1 member
    · exact never body old
  · obtain ⟨rfl, rfl⟩ | old := (isDriver other body).1 drivesToo
    · exact ⟨kept, paused, later governs drivesToo⟩
    · obtain ⟨kept, still, governs⟩ := tidy.driven.steers other body old
      exact ⟨kept, fun subject isSubject isStill => still subject isSubject (.inl isStill), later (governs.rescene fun _ _ => .inl) drivesToo⟩
  · intro first second body rival subject drivesFirst drivesSecond isSubject isSubjectToo
    obtain ⟨rfl, rfl⟩ | old := (isDriver first body).1 drivesFirst
    · obtain ⟨rfl, _⟩ | oldToo := (isDriver second rival).1 drivesSecond
      · rfl
      · exact absurd isSubject (asleep second rival oldToo subject isSubjectToo)
    · obtain ⟨rfl, rfl⟩ | oldToo := (isDriver second rival).1 drivesSecond
      · exact absurd isSubjectToo (asleep first body old subject isSubject)
      · exact tidy.driven.sole first second body rival subject old oldToo isSubject isSubjectToo
  · obtain ⟨fits, stands⟩ := lodged stead here
    have resumed : Placed scene stead machine := by
      refine (tidy.placed stead here).rescene rfl (fun _ _ _ => Iff.rfl) (fun id handle owns rests busy => ?_) fun _ _ => .inl
      obtain isOpened | isStill | isSubject := busy
      · exact absurd (.inl isOpened) rests
      · exact absurd (.inr isStill) rests
      · exact stands id handle isSubject owns rests
    refine resumed.regraph rfl rfl rfl fun other body drivesToo => ((isDriver other body).1 drivesToo).symm.imp_right fun ⟨_, same⟩ => ?_
    have fitsLater : Fits scene ({ machine with graph := Graph.rested machine.graph observer effect task } : Stage Memory) task :=
      fits.congr rfl (Nat.le_refl _) rfl fun _ _ _ guarded => guarded
    exact same ▸ fitsLater

theorem Upright.rested (upright : Upright machine) (later : Upright after) {record : Effect (Code Memory) (Task (Code Memory))}
    (found : after.graph.content? effect = some (.effect record)) (formed : task.Formed)
    (steady : machine.graph.Steady (rested after.graph machine.graph.observer effect task)) :
    Upright { after with graph := rested after.graph machine.graph.observer effect task } := by
  have coherent : Coherent Code.query? { after.graph with observer := machine.graph.observer } := later.coherent.of_vertices rfl
  refine ⟨⟨symmetric_rested later.fit.symmetric, fun observer observed => ?_, fun other record body isEffect isBody => ?_⟩,
    Coherent.modifyEffect (Coherent.modifyEffect coherent effect _) effect _, fun observer observed => ?_, later.formed, later.known, later.acyclic,
    fun id node foundNode => (later.fair id node foundNode).mono fun cell value signal => ?_⟩
  · exact Nat.lt_of_lt_of_le (upright.fit.observing observer observed) steady.size
  · by_cases here : other = effect
    · subst here
      cases (content?_rested_self found).symm.trans isEffect
      cases isBody
      exact formed
    · exact later.fit.bodies other record body ((content?_rested_of_ne here).symm.trans isEffect) isBody
  · obtain ⟨record, isEffect⟩ := upright.observing observer observed
    obtain ⟨again, foundLater, _⟩ := steady.effects observer record isEffect
    exact ⟨again, foundLater⟩
  · have apart : cell ≠ effect := by
      rintro rfl
      cases found.symm.trans signal
    exact ⟨value, (content?_rested_of_ne apart).trans signal⟩

theorem Alone.carry (alone : Alone scene before id) (nodes : after.nodes = before.nodes) : Alone scene after id := fun kid member =>
  (alone kid (kids_congr nodes ▸ member)).carry nodes

theorem Primed.carry (primed : Primed scene before task) (nodes : after.nodes = before.nodes) : Primed scene after task := by
  cases task with
  | branches =>
    obtain ⟨node, found, mounted, presents, shown, alone⟩ := primed
    exact ⟨node, nodes ▸ found, mounted, (presents_congr nodes node).2 presents, shown, alone.carry nodes⟩
  | items =>
    obtain ⟨list, found, mounted, lists, alone⟩ := primed
    exact ⟨list, nodes ▸ found, mounted, (lists_congr nodes list).2 lists, alone.carry nodes⟩
  | text =>
    obtain ⟨node, found, shown⟩ := primed
    exact ⟨node, nodes ▸ found, shown⟩
  | property | classes | host => trivial

/-- What a step ensures it ensures of what it leads to. -/
theorem ensures_ran {α : Type} {breaks : Breaks} {step : Act Memory α} {post : α → Stage Memory → Prop} (ensured : Ensures breaks step machine post) :
    Ensures breaks step machine fun value after => step.run machine = (.done value, after) ∧ post value after := by
  unfold Ensures at ensured ⊢
  split
  next value after ran =>
    rw [ran] at ensured
    exact ⟨ran, ensured⟩
  next ran =>
    rw [ran] at ensured
    exact ensured
  next ran =>
    rw [ran] at ensured
    exact ensured

/-- The machine in which the body of an effect begins to run. -/
abbrev beginning (machine : Stage Memory) (effect : Nat) (task : Task (Code Memory)) : Stage Memory :=
  { machine with graph := running machine.graph effect, held := task.parts ++ machine.held }

/-- What the run of an effect of a node leaves behind. All that is done to the nodes and to the document its body does. -/
structure Steered (calls : Calls (Host.rendering Memory)) (scene : Scene) (effect : Nat) (task : Task (Code Memory)) (before after : Stage Memory) : Prop where
  tidy : Tidy scene after
  frame : Frame scene (fun id => task.subject? = some id ∧ ¬ On before id) before after
  attends : before.graph.Attends (· = effect) after.graph
  drives : Drives after.graph effect task
  performed : ∃ ran, (calls.perform task).run (beginning before effect task) = (.done none, ran) ∧ after.document = ran.document ∧ after.nodes = ran.nodes

section

variable (upright : Upright machine) (found : machine.graph.content? effect = some (.effect ⟨some task, none, false⟩)) (renders : task.Renders)
  (inBatch : 0 < machine.graph.depth) (tidy : Tidy (scene.during task) { machine with graph := running machine.graph effect }) (kept : Assigned scene machine effect task)
  (paused : ∀ subject, task.subject? = some subject → ¬ scene.still subject) (primed : Primed scene machine task)
  (lodged : Lodged scene machine task)

include upright found renders inBatch tidy kept paused primed lodged

theorem begins_running : Begins scene effect task (beginning machine effect task) := by
  have formed := upright.fit.bodies effect _ task found rfl
  have self : (running machine.graph effect).content? effect = some (.effect ⟨none, none, false⟩) := content?_running_self found
  have inBatchRun : 0 < (running machine.graph effect).depth := by
    rw [show (running machine.graph effect).depth = machine.graph.depth from depth_release ..]
    exact inBatch
  exact ⟨renders, formed, inBatchRun, rfl, self, kept, paused, tidy.carry rfl rfl rfl rfl rfl, primed.carry rfl,
    lodged.carry rfl rfl rfl (fun _ _ _ guarded => guarded) fun _ busy => busy⟩

/-- An effect of a node runs. -/
theorem steered_runEffect (keeps : KeepsScenes calls)
    (lone : ∀ subject, task.subject? = some subject → ∀ kid ∈ kids machine subject, ¬ scene.opened kid) :
    Ensures .any (runEffect calls effect) machine fun _ after => Steered calls scene effect task machine after := by
  have begins := begins_running upright found renders inBatch tidy kept paused primed lodged
  have stock : Stock scene machine effect := kept.imp And.left fun ⟨id, isKept, _⟩ => ⟨id, isKept⟩
  refine ensures_runEffect found ((ensures_ran (keeps.perform task effect begins)).mono fun cleanup after ⟨ran, clean, performed⟩ => ⟨clean, ?_⟩)
  have foundLater : after.graph.content? effect = some (.effect ⟨none, none, false⟩) := by
    obtain ⟨later, foundLater, awake⟩ := performed.live
    obtain ⟨again, foundAgain, same⟩ := performed.frame.steady.effects effect _ begins.away
    cases foundLater.symm.trans foundAgain
    have stockLater : Stock (scene.during task) after effect := stock.imp_right fun ⟨id, isKept⟩ => ⟨id, performed.keeps id isKept⟩
    obtain ⟨_, record, isRecord, clean⟩ := performed.tidy.stocked.tame effect stockLater
    cases foundLater.symm.trans isRecord
    obtain ⟨body, cleanup, disposed⟩ := later
    obtain rfl : disposed = false := awake
    obtain rfl : body = none := (same rfl).2
    obtain rfl : cleanup = none := (clean rfl).1
    exact foundLater
  have steadyRun : (running machine.graph effect).Steady after.graph := performed.frame.steady
  have steady := steadyRun.rested found foundLater
  have rests : Tidy scene { after with graph := rested after.graph machine.graph.observer effect task } := by
    refine performed.tidy.rested foundLater renders (upright.rested performed.tidy.upright foundLater begins.formed steady)
      (kept.imp_right fun ⟨id, isKept, subjects⟩ => ⟨id, performed.keeps id isKept, subjects⟩) paused (fun subject isSubject kid member isOpened => ?_) performed.governs performed.lodged
    have inside : kid < machine.nodes.size := tidy.arranged.inside kid (.inl isOpened)
    exact lone subject isSubject kid ((performed.frame.grows.kids subject kid member).resolve_right (Nat.not_le.2 inside)) isOpened
  refine ⟨foundLater, ⟨rests.carry rfl rfl rfl rfl rfl, ?_, Attends.rested performed.attends found foundLater, (drives_rested foundLater renders effect task).2 (.inl ⟨rfl, rfl⟩),
    after, clean ▸ ran, rfl, rfl⟩⟩
  refine performed.frame.regraph rfl rfl (fun other live => (isLive_running found other).2 live) (fun other live => (isLive_rested foundLater other).2 live)
    size_running.symm rfl rfl rfl rfl steady fun other lingers => .inl ?_
  have apart : other ≠ effect := by
    rintro rfl
    exact lingers.not_isLive ⟨_, content?_rested_self foundLater, rfl⟩
  have lingered : Lingers after other := lingers.carry (content?_rested_of_ne apart) (sources_rested other) rfl
  have lingeredBefore := (performed.frame.lingers other lingered).resolve_right fun observes => apart (Option.some.inj observes).symm
  exact lingeredBefore.carry (content?_running_of_ne apart) ((sources_running other).trans (if_neg apart)) rfl

end

/-! Making an effect of a node. -/

theorem Upright.added (upright : Upright machine) (formed : task.Formed) :
    Upright { machine with graph := (machine.graph.add (.effect ⟨some task, none, false⟩)).2 } := by
  have kept : machine.graph.Kept Task.Formed (machine.graph.add (.effect ⟨some task, none, false⟩)).2 := by
    refine .add upright.fit _ ?_
    rintro _ ⟨⟩
    exact ⟨task, rfl, formed⟩
  have alters : Alters (fun _ => False) True machine { machine with graph := (machine.graph.add (.effect ⟨some task, none, false⟩)).2 } :=
    .changed upright kept (upright.coherent.add _ nofun)
  exact alters.upright

/-- What has been set up for nodes is pending until one of them keeps it. -/
theorem Tidy.hold {disposables : Disposable → Prop} (tidy : Tidy scene machine) (loose : ∀ effect, disposables (.effect effect) → ∀ id, ¬ Keeps machine id (.effect effect))
    (tame : ∀ effect, disposables (.effect effect) → effect ∉ machine.world.effects ∧ ∃ found, machine.graph.content? effect = some (.effect found) ∧
      (found.disposed = false → found.cleanup = none ∧ ∀ task, found.body = some task → task.Renders)) : Tidy (scene.holding disposables) machine := by
  refine ⟨tidy.upright, ⟨tidy.arranged.unique, tidy.arranged.distinct, tidy.arranged.roots, tidy.arranged.inside, tidy.arranged.upward, tidy.arranged.settled⟩,
    ⟨tidy.stocked.apart, fun effect isPending => isPending.elim (tidy.stocked.loose effect) (loose effect), fun effect stock => ?_, tidy.stocked.scripts⟩,
    ⟨fun effect task drives => ?_, tidy.driven.sole⟩, fun stead here =>
      (tidy.placed stead here).rescene rfl (fun _ _ _ => Iff.rfl) (fun _ _ _ rests busy => absurd busy rests) fun _ _ isPending => .inl (.inl isPending)⟩
  · obtain (isPending | isNew) | isKept := stock
    · exact tidy.stocked.tame effect (.inl isPending)
    · exact tame effect isNew
    · exact tidy.stocked.tame effect (.inr isKept)
  · obtain ⟨kept, paused, governs⟩ := tidy.driven.steers effect task drives
    exact ⟨kept.imp_left fun ⟨isPending, subjects⟩ => ⟨.inl isPending, subjects⟩, paused, governs.rescene fun _ _ => .inl⟩

/-- A new effect of a node runs for the first time. -/
theorem Tidy.born (tidy : Tidy scene machine) (formed : task.Formed) : Tidy (scene.holding (· = .effect machine.graph.vertices.size)) { machine with
    graph := Graph.running (machine.graph.add (.effect ⟨some task, none, false⟩)).2.enterBatch machine.graph.vertices.size } := by
  have found : (machine.graph.add (.effect ⟨some task, none, false⟩)).2.enterBatch.content? machine.graph.vertices.size = some (.effect ⟨some task, none, false⟩) := by
    show (machine.graph.add (.effect ⟨some task, none, false⟩)).2.content? machine.graph.vertices.size = _
    rw [content?_add, if_pos rfl]
  have content {other : Nat} (old : other < machine.graph.vertices.size) :
      (Graph.running (machine.graph.add (.effect ⟨some task, none, false⟩)).2.enterBatch machine.graph.vertices.size).content? other = machine.graph.content? other := by
    rw [content?_running_of_ne (Nat.ne_of_lt old)]
    show (machine.graph.add (.effect ⟨some task, none, false⟩)).2.content? other = _
    rw [content?_add, if_neg (Nat.ne_of_lt old)]
  have sources {other : Nat} (old : other < machine.graph.vertices.size) :
      (Graph.running (machine.graph.add (.effect ⟨some task, none, false⟩)).2.enterBatch machine.graph.vertices.size).sources other = machine.graph.sources other := by
    rw [sources_running, if_neg (Nat.ne_of_lt old)]
    exact sources_add ..
  have back {other : Nat} {body : Task (Code Memory)} (drives : Drives (Graph.running (machine.graph.add (.effect ⟨some task, none, false⟩)).2.enterBatch
      machine.graph.vertices.size) other body) : other < machine.graph.vertices.size := by
    obtain ⟨⟨record, isEffect, _⟩, apart⟩ := (drives_running found other body).1 drives
    have inside : other < (machine.graph.add (.effect ⟨some task, none, false⟩)).2.vertices.size := Graph.lt_size_of_content? _ isEffect
    rw [Graph.add, Array.size_push] at inside
    exact Nat.lt_of_le_of_ne (Nat.le_of_lt_succ inside) apart
  have later (other : Nat) (stock : Stock scene machine other) : other < machine.graph.vertices.size := tidy.lt_size_of_stock stock
  have entered : Upright { machine with graph := (machine.graph.add (.effect ⟨some task, none, false⟩)).2.enterBatch } := (tidy.upright.added formed).enterBatch
  have upright := entered.running found
  have regraphed : Tidy scene { machine with graph := Graph.running (machine.graph.add (.effect ⟨some task, none, false⟩)).2.enterBatch machine.graph.vertices.size } := by
    have attends : machine.graph.Attends (fun other => machine.graph.vertices.size ≤ other)
        (Graph.running (machine.graph.add (.effect ⟨some task, none, false⟩)).2.enterBatch machine.graph.vertices.size) := by
      refine .of_same ?_ (fun other old => ?_) fun cell value holds => ?_
      · rw [show (Graph.running (machine.graph.add (.effect ⟨some task, none, false⟩)).2.enterBatch machine.graph.vertices.size).queue = machine.graph.queue
          from queue_release ..]
        exact fun _ member => member
      · rw [sources (Nat.lt_of_not_le old)]
        exact fun _ member => member
      · refine (current?_congr (content ?_)).trans holds
        refine Nat.lt_of_not_le fun new => ?_
        rw [Graph.current?, Graph.content?, Array.getElem?_eq_none new] at holds
        cases holds
    refine tidy.regraph upright rfl rfl rfl (fun other body drives => ?_) (fun other body _ drives _ _ => ?_) attends (fun other body new drives => ?_) (fun other stock => ?_)
      fun other member => ?_
    · obtain ⟨record, isEffect, rest⟩ := drives
      exact ⟨record, (content (back ⟨record, isEffect, rest⟩)).symm.trans isEffect, rest⟩
    · obtain ⟨record, isEffect, rest⟩ := drives
      exact ⟨record, (content (machine.graph.lt_size_of_content? isEffect)).trans isEffect, rest⟩
    · exact absurd (machine.graph.lt_size_of_content? drives.content?.choose_spec.1) (Nat.not_lt.2 new)
    · obtain ⟨apart, record, isRecord, clean⟩ := tidy.stocked.tame other stock
      exact ⟨apart, record, (content (later other stock)).trans isRecord, clean⟩
    · obtain ⟨inside, never⟩ := tidy.stocked.scripts other member
      refine ⟨?_, fun body drives => ?_⟩
      · rw [show (Graph.running (machine.graph.add (.effect ⟨some task, none, false⟩)).2.enterBatch machine.graph.vertices.size).vertices.size =
          (machine.graph.add (.effect ⟨some task, none, false⟩)).2.vertices.size from size_running, Graph.add, Array.size_push]
        exact Nat.lt_succ_of_lt inside
      · obtain ⟨record, isEffect, rest⟩ := drives
        exact never body ⟨record, (content inside).symm.trans isEffect, rest⟩
  refine regraphed.hold ?_ ?_
  · rintro other ⟨⟩ id isKept
    exact absurd (later _ (.inr ⟨id, isKept⟩)) (Nat.lt_irrefl _)
  · rintro other ⟨⟩
    refine ⟨fun member => absurd (tidy.stocked.scripts _ member).1 (Nat.lt_irrefl _), _, content?_running_self found, fun _ => ⟨rfl, fun _ never => ?_⟩⟩
    cases never

theorem Primed.holding {disposables : Disposable → Prop} (primed : Primed scene machine task) : Primed (scene.holding disposables) machine task := by
  cases task <;> exact primed

theorem Tidy.leaveBatch (tidy : Tidy scene machine) : Tidy scene { machine with graph := machine.graph.leaveBatch false } := by
  rw [leaveBatch_false]
  have upright := tidy.upright
  have alike : Alike machine { machine with graph := { machine.graph with depth := machine.graph.depth - 1 } } := ⟨rfl, rfl, rfl, rfl, rfl, rfl⟩
  exact alike.tidy tidy ⟨⟨upright.fit.symmetric, upright.fit.observing, upright.fit.bodies⟩, upright.coherent.of_vertices rfl,
    upright.observing, upright.formed, upright.known, upright.acyclic, upright.fair⟩

/-- An effect that lives drives its node on. -/
theorem Drives.later {graph last : Web Memory} (drives : Drives graph effect task) (steady : graph.Steady last) (live : last.IsLive effect) : Drives last effect task := by
  obtain ⟨record, found, awake, isBody, renders⟩ := drives
  obtain ⟨again, foundAgain, same⟩ := steady.effects effect record found
  obtain ⟨_, foundLater, awakeLater⟩ := live
  cases foundAgain.symm.trans foundLater
  exact ⟨again, foundAgain, awakeLater, (same awakeLater).2.trans isBody, renders⟩

theorem steady_left {graph last : Web Memory} (steady : graph.enterBatch.Steady last) : graph.Steady (last.leaveBatch false) := by
  obtain ⟨size, depth, observer, effects, created, signals⟩ := steady
  rw [leaveBatch_false]
  refine ⟨size, ?_, observer, effects, created, signals⟩
  show last.depth - 1 = graph.depth
  rw [depth]
  rfl

theorem lingers_of_add {body : Task (Code Memory)} {other : Nat} (lingers : Lingers { machine with graph := (machine.graph.add (.effect ⟨some body, none, false⟩)).2 } other) :
    Lingers machine other := by
  have old : other ≠ machine.graph.vertices.size := by
    rintro rfl
    exact lingers.not_isLive ⟨_, (content?_add ..).trans (if_pos rfl), rfl⟩
  exact lingers.carry ((content?_add ..).trans (if_neg old)) (sources_add ..) rfl

/-- An effect is made for a node that is being mounted, and runs. It is to be kept by a node then. -/
theorem ensures_ownEffect (keeps : KeepsScenes calls) (tidy : Tidy (scene.during task) machine) (calm : Calm scene machine) (renders : task.Renders)
    (formed : task.Formed) (opened : ∀ subject, task.subject? = some subject → scene.opened subject)
    (paused : ∀ subject, task.subject? = some subject → ¬ scene.still subject)
    (lone : ∀ subject, task.subject? = some subject → ∀ kid ∈ kids machine subject, ¬ scene.opened kid) (primed : Primed scene machine task)
    (lodged : Lodged scene machine task) : Ensures .any (newEffect calls task) machine fun effect after =>
      Underway (scene.holding (· = .effect effect)) scene (fun id => task.subject? = some id ∧ ¬ On machine id) machine after ∧
        machine.graph.vertices.size ≤ effect ∧ Drives after.graph effect task := by
  have uprightAdded := tidy.upright.added formed
  have found : (machine.graph.add (.effect ⟨some task, none, false⟩)).2.enterBatch.content? machine.graph.vertices.size = some (.effect ⟨some task, none, false⟩) := by
    show (machine.graph.add (.effect ⟨some task, none, false⟩)).2.content? machine.graph.vertices.size = _
    rw [content?_add, if_pos rfl]
  have kept : machine.graph.Kept Task.Formed (machine.graph.add (.effect ⟨some task, none, false⟩)).2 := by
    refine .add tidy.upright.fit _ ?_
    rintro _ ⟨⟩
    exact ⟨task, rfl, formed⟩
  have old {other : Nat} (live : machine.graph.IsLive other) : (machine.graph.add (.effect ⟨some task, none, false⟩)).2.IsLive other := by
    obtain ⟨record, isEffect, awake⟩ := live
    refine ⟨record, ?_, awake⟩
    rw [content?_add, if_neg (Nat.ne_of_lt (machine.graph.lt_size_of_content? isEffect)), isEffect]
  show Ensures .any (batch calls (runEffect calls machine.graph.vertices.size) >>= fun _ => pure machine.graph.vertices.size)
    { machine with graph := (machine.graph.add (.effect ⟨some task, none, false⟩)).2 } _
  simp only [batch, ensures_bind, ensures_withBatch, ensures_pure]
  have born : Tidy ((scene.holding (· = .effect machine.graph.vertices.size)).during task) { machine with
      graph := Graph.running (machine.graph.add (.effect ⟨some task, none, false⟩)).2.enterBatch machine.graph.vertices.size } := tidy.born formed
  have steered := steered_runEffect uprightAdded.enterBatch found renders (Nat.succ_pos _) born (.inl ⟨.inr rfl, opened⟩) paused (primed.holding.carry rfl)
    (lodged.carry rfl rfl rfl (fun _ _ _ guarded => guarded) fun _ busy => busy) keeps lone
  refine steered.mono fun _ between steered => ?_
  have calmLeft : Calm (scene.holding (· = .effect machine.graph.vertices.size)) { between with graph := between.graph.leaveBatch false } :=
    calm.carry (steady_left steered.frame.steady).depth
  refine (keeps.flush steered.tidy.leaveBatch calmLeft).mono fun _ after flushed => ?_
  obtain ⟨strays, drained⟩ := flushed
  have size : (machine.graph.add (.effect ⟨some task, none, false⟩)).2.vertices.size = machine.graph.vertices.size + 1 := by rw [Graph.add, Array.size_push]
  have adding : Frame scene (fun id => task.subject? = some id ∧ ¬ On machine id) machine { machine with graph := (machine.graph.add (.effect ⟨some task, none, false⟩)).2 } :=
    (Frame.refl machine).regraph rfl rfl (fun _ live => live) (fun _ live => old live) rfl rfl rfl rfl rfl kept.steady fun other lingers => .inl (lingers_of_add lingers)
  have running : Frame (scene.holding (· = .effect machine.graph.vertices.size)) (fun id => task.subject? = some id ∧ ¬ On machine id)
      { machine with graph := (machine.graph.add (.effect ⟨some task, none, false⟩)).2 } { between with graph := between.graph.leaveBatch false } := by
    have left : (between.graph.leaveBatch false).vertices = between.graph.vertices := vertices_leaveBatch ..
    refine steered.frame.regraph rfl rfl (fun _ live => live) (fun other live => ?_) rfl rfl rfl rfl rfl (steady_left steered.frame.steady) fun other lingers => ?_
    · rw [leaveBatch_false]
      exact live
    · refine steered.frame.lingers other ?_
      simpa only [Lingers, Graph.content?, Graph.sources, left] using lingers
  have stocked (other : Nat) (isPending : (scene.holding (· = .effect machine.graph.vertices.size)).pending (.effect other)) :
      scene.pending (.effect other) ∨ (∃ id, Keeps machine id (.effect other)) ∨ machine.graph.vertices.size ≤ other := by
    obtain isPending | ⟨⟨⟩⟩ := isPending
    · exact .inl isPending
    · exact .inr (.inr (Nat.le_refl _))
  have attends : machine.graph.Attends (fun _ => False) (between.graph.leaveBatch false) := by
    have added : machine.graph.Attends (fun _ => False) (machine.graph.add (.effect ⟨some task, none, false⟩)).2 :=
      .of_same (fun _ member => member) (fun other _ => by simp) fun cell value => current?_add _
    have ran : (machine.graph.add (.effect ⟨some task, none, false⟩)).2.Attends (· = machine.graph.vertices.size) (between.graph.leaveBatch false) := by
      rw [leaveBatch_false]
      exact steered.attends.of_vertices rfl rfl rfl rfl
    exact added.trans ran kept.steady (steady_left steered.frame.steady) fun other here => .inr (Nat.le_of_eq here.symm)
  have driving : Drives (between.graph.leaveBatch false) machine.graph.vertices.size task := by
    rw [leaveBatch_false]
    exact steered.drives
  have depth : (between.graph.leaveBatch false).depth = machine.graph.depth := (steady_left steered.frame.steady).depth
  refine ⟨⟨strays.tidy, ?_, fun inBatch => ?_, fun closed _ => drained (depth.trans closed)⟩, Nat.le_refl _, ?_⟩
  · have lands (last : Stage Memory) (id : NodeId) (target : Handle) (anchor : Anchor) (_ : scene.Busy id)
        (hangs : Hangs (scene.holding (· = .effect machine.graph.vertices.size)) last id target anchor) : Hangs scene last id target anchor :=
      hangs.congr rfl rfl fun _ _ _ guarded => guarded
    refine (adding.join running (fun _ opened => opened) (fun _ still => still) (fun _ => .inl) (fun _ isAbout _ => .inl isAbout) stocked rfl
      (fun _ _ _ guarded => guarded) (lands _)).join strays.frame
      (fun _ opened => opened) (fun _ still => still) (fun _ => .inl) (fun _ never => never.elim) stocked rfl (fun _ _ _ guarded => guarded) (lands _)
  · exact attends.trans (strays.attends (depth.symm ▸ inBatch)) (kept.steady.trans (steady_left steered.frame.steady)) strays.frame.steady fun _ => False.elim
  · exact driving.later strays.frame.steady (strays.frame.spared _ (.inl (.inr rfl)) driving.isLive)

end Rendering

end ReactiveMarkup
