import ReactiveMarkup.Proofs.SceneEffects

/-! The effects that wait run outside of batches, one after the other, and effects of nodes are taken back. -/

namespace ReactiveMarkup

open ReactiveMarkup.Step

namespace Graph

variable {Code Body : Type} {odd : Nat → Prop} {graph : Graph Code Body} {id : Nat}

/-- Whatever an effect that is taken back has read, the others go on as before. -/
theorem Attends.ended {effect : Effect Code Body} (found : graph.content? id = some (.effect effect)) : Attends odd graph (ended graph id) := by
  refine ⟨fun other _ live _ member => ?_, fun other _ live _ => .inr ⟨?_, fun cell _ value holds => ?_⟩⟩
  · rw [queue_ended]
    exact List.mem_filter.2 ⟨member, by simpa using ((isLive_ended found).1 live).2⟩
  · rw [sources_ended, if_neg ((isLive_ended found).1 live).2]
    exact fun _ member => member
  · exact ((sameCells_of_ne found (content?_ended_self found) fun _ => content?_ended_of_ne).current? cell).trans holds

end Graph

namespace Machine

open ReactiveMarkup.Graph

variable {host : Host} {calls : Calls host} {machine : Machine host} {id : Nat}

/-- An effect whose body is away runs nothing. -/
theorem ensures_runEffect_of_away {breaks : Breaks} {post : Unit → Machine host → Prop} (found : machine.graph.content? id = some (.effect ⟨none, none, false⟩))
    (done : post () { machine with graph := machine.graph.release id }) : Ensures breaks (runEffect calls id) machine post := by
  have effect?_machine := machine.graph.effect?_eq_some.2 found
  have effect?_released : (machine.graph.release id).effect? id = some ⟨none, none, false⟩ := (effect?_eq_some _).2 ((content?_release ..).trans found)
  simp only [runEffect, ensures_bind, ensures_graph?, effect?_machine, Bool.false_eq_true, if_false, ensures_modifyGraph, runCleanup,
    effect?_released, Option.bind_some, ensures_pure]
  exact done

/-- The end of an effect that is over changes nothing. -/
theorem run_dispose_of_dead (dead : ¬ machine.graph.IsLive id) : (dispose calls id).run machine = (.done (), machine) := by
  rw [dispose, run_bind_of_done (run_graph? machine)]
  cases found : machine.graph.effect? id with
  | none => rfl
  | some effect =>
    have gone : effect.disposed = true := by
      cases awake : effect.disposed with
      | true => rfl
      | false => exact absurd ⟨effect, machine.graph.effect?_eq_some.1 found, awake⟩ dead
    simp only [gone, if_true]
    rfl

/-- The end of an effect that leaves nothing to clean up runs no code. -/
theorem run_dispose_of_clean {effect : Effect host.Code (Task host.Code)} (found : machine.graph.content? id = some (.effect effect))
    (awake : effect.disposed = false) (clean : effect.cleanup = none) :
    (dispose calls id).run machine = (.done (), { machine with graph := ended machine.graph id }) := by
  have isEffect := machine.graph.effect?_eq_some.2 found
  have retired := (machine.graph.retire id).effect?_eq_some.2 (content?_retire_self found)
  rw [dispose, run_bind_of_done (run_graph? machine)]
  simp only [isEffect, awake]
  show ((runCleanup calls id >>= fun _ => modifyGraph _ : Run host Unit)).run { machine with graph := machine.graph.retire id } = _
  have cleaned : (runCleanup calls id).run { machine with graph := machine.graph.retire id } = (.done (), { machine with graph := machine.graph.retire id }) := by
    rw [runCleanup, run_bind_of_done (run_graph? _)]
    simp only [retired, Option.bind_some, clean]
    rfl
  rw [run_bind_of_done cleaned]
  rfl

end Machine

namespace Rendering

open ReactiveMarkup.Graph ReactiveMarkup.Machine Tidy Stocked

variable {Memory : Type} {about : NodeId → Prop} {scene inner : Scene} {start before middle after machine : Stage Memory} {id : NodeId} {effect : Nat}
  {task : Task (Code Memory)} {calls : Calls (Host.rendering Memory)} {disposables : List Disposable}

/-! Taking back. -/

theorem drives_ended {graph : Web Memory} {record : Effect (Code Memory) (Task (Code Memory))} (found : graph.content? effect = some (.effect record)) (other : Nat) :
    Drives (ended graph effect) other task ↔ Drives graph other task ∧ other ≠ effect := by
  by_cases here : other = effect
  · subst here
    refine ⟨fun ⟨later, again, _, isBody, _⟩ => ?_, fun ⟨_, never⟩ => absurd rfl never⟩
    cases (content?_ended_self found).symm.trans again
    cases isBody
  · simp only [Drives, content?_ended_of_ne here, ne_eq, here, not_false_eq_true, and_true]

/-- An effect of a node that no node keeps is taken back. -/
theorem Tidy.ended {record : Effect (Code Memory) (Task (Code Memory))} (tidy : Tidy scene machine) (found : machine.graph.content? effect = some (.effect record))
    (upright : Upright { machine with graph := Graph.ended machine.graph effect }) (loose : ∀ id, ¬ Keeps machine id (.effect effect))
    (steady : machine.graph.Steady (Graph.ended machine.graph effect)) : Tidy scene { machine with graph := Graph.ended machine.graph effect } := by
  have attends : machine.graph.Attends (fun _ => False) (Graph.ended machine.graph effect) := .ended found
  refine tidy.regraph upright rfl rfl rfl (fun other _ drives => ((drives_ended found other).1 drives).1) (fun other _ id drives isKept _ => ?_) attends
    (fun _ _ never => never.elim) (fun other stock => ?_) fun other member => ?_
  · refine (drives_ended found other).2 ⟨drives, ?_⟩
    rintro rfl
    exact loose id isKept
  · obtain ⟨apart, record, isRecord, clean⟩ := tidy.stocked.tame other stock
    refine ⟨apart, ?_⟩
    by_cases here : other = effect
    · subst here
      exact ⟨_, content?_ended_self found, nofun⟩
    · exact ⟨record, (content?_ended_of_ne here).trans isRecord, clean⟩
  · obtain ⟨inside, never⟩ := tidy.stocked.scripts other member
    exact ⟨Nat.lt_of_lt_of_le inside steady.size, fun body drives => never body ((drives_ended found other).1 drives).1⟩

/-- What taking back leaves behind. -/
structure Drops (inner scene : Scene) (disposables : List Disposable) (before after : Stage Memory) : Prop extends Underway inner scene (fun _ => False) before after where
  nodes : after.nodes = before.nodes
  undisturbed : before.document.Undisturbed after.document
  dropped : ∀ effect task, Drives after.graph effect task → Drives before.graph effect task ∧ .effect effect ∉ disposables
  silent : ∀ subscription ∈ after.document.subscriptions, subscription ∈ before.document.subscriptions ∧ .subscription subscription.id ∉ disposables

namespace Drops

theorem refl (tidy : Tidy inner machine) : Drops inner scene [] machine machine :=
  ⟨.refl tidy, rfl, .refl _, fun _ _ drives => ⟨drives, List.not_mem_nil⟩, fun _ member => ⟨member, List.not_mem_nil⟩⟩

theorem trans {more : List Disposable} (first : Drops inner scene disposables before middle) (second : Drops inner scene more middle after) :
    Drops inner scene (disposables ++ more) before after := by
  refine ⟨first.toUnderway.trans second.toUnderway fun _ never => never.elim, second.nodes.trans first.nodes, first.undisturbed.trans second.undisturbed,
    fun effect task drives => ?_, fun subscription listens => ?_⟩
  · obtain ⟨between, apartLater⟩ := second.dropped effect task drives
    obtain ⟨old, apart⟩ := first.dropped effect task between
    exact ⟨old, fun member => (List.mem_append.1 member).elim apart apartLater⟩
  · obtain ⟨between, apartLater⟩ := second.silent subscription listens
    obtain ⟨old, apart⟩ := first.silent subscription between
    exact ⟨old, fun member => (List.mem_append.1 member).elim apart apartLater⟩

end Drops

/-- An effect that a step has set up or taken over is taken back. -/
theorem drops_dispose (keeps : KeepsScenes calls) (tidy : Tidy inner machine) (isPending : inner.pending (.effect effect)) (needless : ¬ Needed scene machine effect) :
    Ensures .any (dispose calls effect) machine fun _ after => Drops inner scene [.effect effect] machine after := by
  obtain ⟨_, record, found, clean⟩ := tidy.stocked.tame effect (.inl isPending)
  cases awake : record.disposed with
  | true =>
    have dead : ¬ machine.graph.IsLive effect := by
      rintro ⟨again, foundAgain, awakeAgain⟩
      cases found.symm.trans foundAgain
      cases awake.symm.trans awakeAgain
    unfold Ensures
    rw [run_dispose_of_dead dead]
    refine ⟨.refl tidy, rfl, .refl _, fun other task drives => ⟨drives, fun member => ?_⟩, fun _ listens => ⟨listens, by simp⟩⟩
    cases List.mem_singleton.1 member
    exact dead drives.isLive
  | false =>
    have ran : (dispose calls effect).run machine = _ := run_dispose_of_clean found awake (clean awake).1
    have alters := (off_dispose keeps.trees tidy.upright effect).of_done ran
    have steady : machine.graph.Steady (ended machine.graph effect) := alters.kept.steady
    unfold Ensures
    rw [ran]
    refine ⟨⟨tidy.ended found alters.upright (tidy.stocked.loose effect isPending) steady, ?_, fun _ => .ended found, fun _ empty => ?_⟩, rfl, .refl _,
      fun other task drives => ?_, fun _ listens => ⟨listens, by simp⟩⟩
    · refine ⟨steady, alters.grows, fun _ _ => rfl, fun _ _ => rfl, fun _ _ _ _ => Iff.rfl, fun other needed live => (isLive_ended found).2 ⟨live, ?_⟩, rfl,
        ⟨fun _ member => member, fun _ member => .inl member⟩, fun id _ isKept => .inr (.inl ⟨id, isKept⟩), fun _ _ _ _ hangs => hangs.congr rfl rfl fun _ _ _ guarded => guarded,
        fun other lingers => .inl ?_⟩
      · rintro rfl
        exact needless needed
      · have apart : other ≠ effect := by
          rintro rfl
          obtain ⟨_, isEffect, _, ⟨_, sources⟩ | ⟨_, body, _⟩⟩ := lingers
          · exact sources ((sources_ended other).trans (if_pos rfl))
          · cases (content?_ended_self found).symm.trans isEffect
            cases body
        exact lingers.carry (content?_ended_of_ne apart) ((sources_ended other).trans (if_neg apart)) rfl
    · show (ended machine.graph effect).queue = []
      rw [queue_ended, empty, List.filter_nil]
    · obtain ⟨old, apart⟩ := (drives_ended found other).1 drives
      refine ⟨old, fun member => apart ?_⟩
      cases List.mem_singleton.1 member
      rfl

/-- A document is changed where no handle moves. -/
theorem Underway.edit {document : Document (Listener (Code Memory))} (underway : Underway inner scene about start machine)
    (placed : ∀ stead, inner.stead = some stead → Placed inner stead { machine with document }) : Underway inner scene about start { machine with document } := by
  obtain ⟨tidy, frame, attends, idle⟩ := underway
  refine ⟨tidy.redocument placed, frame.regraph rfl rfl (fun _ live => live) (fun _ live => live) rfl rfl rfl rfl rfl ?_ frame.lingers, attends, idle⟩
  exact frame.steady

/-- A listener that a step has taken over is taken back. -/
theorem drops_unsubscribe {document : Document (Listener (Code Memory))} {subscription : Nat} (tidy : Tidy inner machine) (undisturbed : machine.document.Undisturbed document)
    (filtered : document.subscriptions = machine.document.subscriptions.filter (·.id != subscription)) :
    Drops inner scene [.subscription subscription] machine { machine with document } := by
  refine ⟨Underway.edit (.refl tidy) fun stead here => ?_, rfl, undisturbed, fun _ _ drives => ⟨drives, by simp⟩, fun other listens => ?_⟩
  · refine (tidy.placed stead here).undisturbed undisturbed fun other listens new => (tidy.placed stead here).listening other ?_ new
    rw [filtered] at listens
    exact (List.mem_filter.1 listens).1
  · replace listens : other ∈ document.subscriptions := listens
    rw [filtered] at listens
    obtain ⟨old, apart⟩ := List.mem_filter.1 listens
    simp only [bne_iff_ne] at apart
    simpa [apart] using old

/-- What a step has taken over is taken back. -/
theorem drops_disposeAll (keeps : KeepsScenes calls) (disposables : List Disposable) {machine : Stage Memory} (tidy : Tidy inner machine)
    (held : ∀ effect, .effect effect ∈ disposables → inner.pending (.effect effect) ∧ ¬ Needed scene machine effect) :
    Ensures .any (disposeAll calls disposables) machine fun _ after => Drops inner scene disposables machine after := by
  induction disposables generalizing machine with
  | nil => exact .refl tidy
  | cons first rest ih =>
    have later {between : Stage Memory} (drops : Drops inner scene [first] machine between) (other : Nat) (member : .effect other ∈ rest) :
        inner.pending (.effect other) ∧ ¬ Needed scene between other := by
      obtain ⟨isPending, needless⟩ := held other (List.mem_cons_of_mem _ member)
      refine ⟨isPending, fun needed => needless (needed.imp_right fun ⟨id, busy, isKept⟩ => ⟨id, busy, (drops.frame.keeps_iff_of_busy busy).1 isKept⟩)⟩
    cases first with
    | effect effect =>
      obtain ⟨isPending, needless⟩ := held effect List.mem_cons_self
      rw [disposeAll, ensures_bind]
      refine (drops_dispose keeps tidy isPending needless).mono fun _ between drops => ?_
      exact (ih drops.tidy (later drops)).mono fun _ _ rest => drops.trans rest
    | subscription subscription =>
      obtain ⟨document, ran, undisturbed, filtered, _⟩ := Document.undisturbed_unsubscribe subscription machine.document
      rw [disposeAll, ensures_bind, ensures_edit]
      unfold Ensures
      rw [ran]
      have drops : Drops inner scene [.subscription subscription] machine { machine with document } :=
        drops_unsubscribe tidy undisturbed filtered
      exact (ih drops.tidy (later drops)).mono fun _ _ rest => drops.trans rest

/-! Running what waits. -/

/-- Below a node whose effect may run, everything rests. -/
theorem Tidy.alone (tidy : Tidy scene machine) (quiet : ∀ id, scene.still id → scene.opened id) (rests : ¬ scene.still id) : Alone scene machine id := by
  have idle {other parent : NodeId} (member : other ∈ kids machine parent) (awake : ¬ scene.still parent) : ¬ scene.Busy other := fun busy =>
    awake (tidy.arranged.upward other (busy.elim (fun isOpened => isOpened) (quiet other)) parent member)
  intro kid member other below
  induction below with
  | refl => exact idle member rests
  | tail _ inKids ih => exact idle inKids fun isStill => ih (.inr isStill)

/-- What an effect says about its node lets it run. -/
theorem Governs.primed (governs : Governs scene machine effect task) (alone : ∀ subject, task.subject? = some subject → Alone scene machine subject) :
    Primed scene machine task := by
  cases task with
  | branches =>
    obtain ⟨node, found, mounted, presents, selection, follows⟩ := governs
    exact ⟨node, found, mounted, presents, .inr ⟨selection, follows.selected, follows.active⟩, alone _ rfl⟩
  | items =>
    obtain ⟨list, found, mounted, lists⟩ := governs
    exact ⟨list, found, mounted, lists, alone _ rfl⟩
  | text =>
    obtain ⟨node, found, shown⟩ := governs
    exact ⟨node, found, .inl shown⟩
  | property | classes | host => trivial

/-- A node whose effect has run is mounted as before. -/
theorem Governs.on_iff (governs : Governs scene before effect task) (frame : Frame scene about before after) (isSubject : task.subject? = some id)
    (off : ¬ On before id) : On after id ↔ On before id := by
  cases task with
  | items _ target =>
    cases isSubject
    obtain ⟨list, found, mounted | isOpened, _⟩ := governs
    · exact absurd ⟨_, found, mounted⟩ off
    · have same := frame.busy id (.inl isOpened)
      rw [found] at same
      obtain ⟨later, foundLater, mold⟩ := Option.map_eq_some_iff.1 same
      cases later with
      | list later =>
        injection mold with mold
        have mounted := congrArg ListNode.mounted mold
        rw [Rendering.on_iff foundLater, Rendering.on_iff found]
        exact iff_of_eq (congrArg (· = true) mounted)
      | _ => cases mold
  | branches =>
    cases isSubject
    obtain ⟨node, found, mounted, _⟩ := governs
    exact absurd ⟨_, found, mounted⟩ off
  | text =>
    cases isSubject
    obtain ⟨node, found, shown⟩ := governs
    exact absurd ⟨_, found, shown⟩ off
  | property | classes | host => cases isSubject

theorem Frame.narrow (frame : Frame scene about before after) (same : ∀ id, about id → (On after id ↔ On before id)) : Frame scene (fun _ => False) before after := by
  refine { frame with loose := fun id inside _ waits => ?_ }
  by_cases isAbout : about id
  · exact same id isAbout
  · exact frame.loose id inside isAbout waits

/-- An effect that drives nothing may be forgotten. -/
theorem Tidy.slack {graph : Web Memory} (tidy : Tidy scene machine) (idle : ∀ task, ¬ Drives machine.graph effect task) (upright : Upright { machine with graph })
    (contents : ∀ other, graph.content? other = machine.graph.content? other) (size : graph.vertices.size = machine.graph.vertices.size)
    (queue : ∀ other ∈ machine.graph.queue, other ≠ effect → other ∈ graph.queue) (sources : ∀ other, other ≠ effect → machine.graph.sources other ⊆ graph.sources other) :
    Tidy scene { machine with graph } := by
  have drives (other : Nat) (task : Task (Code Memory)) : Drives graph other task ↔ Drives machine.graph other task := by simp only [Drives, contents]
  have attends : machine.graph.Attends (· = effect) graph :=
    ⟨fun other usual _ _ member => queue other member usual, fun other usual _ _ => .inr ⟨sources other usual, fun cell _ _ holds => (current?_congr (contents cell)).trans holds⟩⟩
  refine tidy.regraph upright rfl rfl rfl (fun other task => (drives other task).1) (fun other task _ isDriver _ _ => (drives other task).2 isDriver) attends
    (fun other task here drives => idle task (here ▸ drives)) (fun other stock => ?_) fun other member => ?_
  · obtain ⟨apart, record, found, clean⟩ := tidy.stocked.tame other stock
    exact ⟨apart, record, (contents other).trans found, clean⟩
  · obtain ⟨inside, never⟩ := tidy.stocked.scripts other member
    exact ⟨size.symm ▸ inside, fun task isDriver => never task ((drives other task).1 isDriver)⟩

/-- An effect does not wait any more. -/
abbrev popping (machine : Stage Memory) (rest : List Nat) : Stage Memory := { machine with graph := { machine.graph with queue := rest } }

theorem Upright.popping {rest : List Nat} (upright : Upright machine) : Upright (popping machine rest) :=
  ⟨⟨upright.fit.symmetric, upright.fit.observing, upright.fit.bodies⟩, upright.coherent.of_vertices rfl, upright.observing, upright.formed, upright.known,
    upright.acyclic, upright.fair⟩

theorem Frame.popping {rest : List Nat} : Frame scene about machine (popping machine rest) := by
  have steady : machine.graph.Steady { machine.graph with queue := rest } := by
    obtain ⟨size, depth, observer, effects, created, signals⟩ := Steady.refl machine.graph
    exact ⟨size, depth, observer, effects, created, signals⟩
  exact (Frame.refl machine).regraph rfl rfl (fun _ live => live) (fun _ live => live) rfl rfl rfl rfl rfl steady fun _ => .inl

section

variable (keeps : KeepsScenes calls) (tidy : Tidy scene machine) (inBatch : 0 < machine.graph.depth) (quiet : ∀ id, scene.still id → scene.opened id)

include keeps tidy inBatch quiet

section

variable {rest : List Nat} (waiting : machine.graph.queue = effect :: rest) (drives : Drives machine.graph effect task)

include waiting drives

omit keeps inBatch in
/-- An effect of a node that has waited the longest is at rest, and its node is ready for it. -/
theorem ready_waiting : (popping machine rest).graph.content? effect = some (.effect ⟨some task, none, false⟩) ∧ Primed scene (popping machine rest) task ∧
    Lodged scene (popping machine rest) task ∧ Tidy (scene.during task) { popping machine rest with graph := running (popping machine rest).graph effect } := by
  have others (other : Nat) (member : other ∈ machine.graph.queue) (apart : other ≠ effect) : other ∈ rest :=
    (List.mem_cons.1 (waiting ▸ member)).resolve_left apart
  have steers := tidy.driven.steers effect task drives
  have alone (subject : NodeId) (isSubject : task.subject? = some subject) : Alone scene machine subject := tidy.alone quiet (steers.paused subject isSubject)
  refine ⟨?_, (steers.governs.primed alone).carry rfl, (tidy.lodged drives).carry rfl rfl rfl (fun _ _ _ guarded => guarded) fun _ busy => busy, tidy.running drives others⟩
  obtain ⟨_, record, isRecord, clean⟩ := tidy.stocked.tame effect (tidy.stock_of_drives drives)
  obtain ⟨again, foundAgain, awake, isBody, _⟩ := drives
  cases isRecord.symm.trans foundAgain
  obtain ⟨body, cleanup, disposed⟩ := record
  obtain rfl : disposed = false := awake
  obtain rfl : body = some task := isBody
  obtain rfl : cleanup = none := (clean rfl).1
  exact isRecord

omit keeps in
theorem begins_waiting : Begins scene effect task (beginning (popping machine rest) effect task) := by
  obtain ⟨found, primed, lodged, running⟩ := ready_waiting tidy quiet waiting drives
  have steers := tidy.driven.steers effect task drives
  exact begins_running tidy.upright.popping found drives.choose_spec.2.2.2 inBatch running steers.kept steers.paused primed lodged

theorem steered_waiting : Ensures .any (runEffect calls effect) (popping machine rest) fun _ after => Steered calls scene effect task (popping machine rest) after := by
  obtain ⟨found, primed, lodged, running⟩ := ready_waiting tidy quiet waiting drives
  have steers := tidy.driven.steers effect task drives
  refine steered_runEffect tidy.upright.popping found drives.choose_spec.2.2.2 inBatch running steers.kept steers.paused primed lodged keeps fun subject isSubject kid member isOpened => ?_
  exact steers.paused subject isSubject (tidy.arranged.upward kid isOpened subject member)

end

/-- The effect that has waited the longest runs, whatever it is. -/
theorem tidy_runEffect {rest : List Nat} (waiting : machine.graph.queue = effect :: rest) :
    Ensures .any (runEffect calls effect) (popping machine rest) fun _ after => Tidy scene after ∧ Frame scene (fun _ => False) machine after := by
  have popped : Upright (popping machine rest) := tidy.upright.popping
  have others (other : Nat) (member : other ∈ machine.graph.queue) (apart : other ≠ effect) : other ∈ rest :=
    (List.mem_cons.1 (waiting ▸ member)).resolve_left apart
  by_cases driver : ∃ task, Drives machine.graph effect task
  · obtain ⟨task, drives⟩ := driver
    refine (steered_waiting keeps tidy inBatch quiet waiting drives).mono fun _ after steered => ⟨steered.tidy, ?_⟩
    have first : Frame scene (fun id => task.subject? = some id ∧ ¬ On machine id) machine (popping machine rest) := .popping
    have frame := first.trans steered.frame fun _ isAbout _ => .inl isAbout
    exact frame.narrow fun id ⟨isSubject, off⟩ => (tidy.driven.steers effect task drives).governs.on_iff frame isSubject off
  · have idle : ∀ task, ¬ Drives machine.graph effect task := fun task drives => driver ⟨task, drives⟩
    have tidyPopped : Tidy scene (popping machine rest) := tidy.slack idle popped (fun _ => rfl) rfl others fun _ _ _ member => member
    by_cases stock : Stock scene machine effect
    · obtain ⟨_, record, found, clean⟩ := tidy.stocked.tame effect stock
      obtain ⟨body, cleanup, disposed⟩ := record
      cases disposed with
      | true =>
        refine ensures_graph?_bind.2 ?_
        rw [show (popping machine rest).graph.effect? effect = _ from (effect?_eq_some _).2 found]
        exact ⟨tidyPopped, .popping⟩
      | false =>
        obtain rfl : cleanup = none := (clean rfl).1
        obtain rfl : body = none := Option.eq_none_iff_forall_ne_some.2 fun task isBody => idle task ⟨_, found, rfl, isBody, (clean rfl).2 task isBody⟩
        have alters : Alters (fun _ => False) True (popping machine rest) { machine with graph := (popping machine rest).graph.release effect } :=
          .changed popped (.release popped.fit effect) (Coherent.release popped.coherent found)
        have first : Frame scene (fun _ => False) machine (popping machine rest) := .popping
        have steady : machine.graph.Steady ((popping machine rest).graph.release effect) := first.steady.trans alters.kept.steady
        refine ensures_runEffect_of_away found ⟨tidy.slack idle alters.upright (fun other => content?_release ..) (size_release ..) (fun other member apart => ?_)
          fun other apart => ?_, ?_⟩
        · rw [queue_release]
          exact others other member apart
        · rw [sources_release, if_neg apart]
          exact fun _ member => member
        · refine (Frame.refl machine).regraph rfl rfl (fun _ live => live) (fun other live => ?_) rfl rfl rfl rfl rfl steady fun other lingers => .inl ?_
          · obtain ⟨record, isRecord, awake⟩ := live
            exact ⟨record, (content?_release ..).trans isRecord, awake⟩
          · have apart : other ≠ effect := by
              rintro rfl
              exact lingers.not_isLive ⟨_, (content?_release ..).trans found, rfl⟩
            exact lingers.carry (content?_release ..) ((sources_release ..).trans (if_neg apart)) rfl
    · have loose : ¬ Stock scene (popping machine rest) effect := stock
      refine (aside_runEffect keeps tidyPopped loose inBatch).mono fun _ after aside => ⟨tidyPopped.beside_one loose aside, ?_⟩
      have first : Frame scene (fun _ => False) machine (popping machine rest) := .popping
      have second : Frame scene (fun _ => False) (popping machine rest) after := tidyPopped.frame_aside aside fun _ here => here ▸ loose
      exact first.trans second fun _ => False.elim

end

/-- All that waits runs. -/
theorem tidy_drain (keeps : KeepsScenes calls) (quiet : ∀ id, scene.still id → scene.opened id) (bound : Nat) {machine : Stage Memory} (tidy : Tidy scene machine)
    (inBatch : 0 < machine.graph.depth) :
    Ensures .any (drain calls bound) machine fun _ after => Tidy scene after ∧ Frame scene (fun _ => False) machine after ∧ after.graph.queue = [] := by
  induction bound generalizing machine with
  | zero => trivial
  | succ bound ih =>
    unfold Ensures
    rw [run_drain_succ]
    cases waiting : machine.graph.queue with
    | nil => exact ⟨tidy, .refl machine, waiting⟩
    | cons effect rest =>
      show Ensures .any (runEffect calls effect >>= fun _ => drain calls bound) (popping machine rest) _
      rw [ensures_bind]
      refine (tidy_runEffect keeps tidy inBatch quiet waiting).mono fun _ between ⟨tidyBetween, frame⟩ => ?_
      refine (ih tidyBetween (frame.steady.depth ▸ inBatch)).mono fun _ after ⟨tidyAfter, later, empty⟩ => ⟨tidyAfter, ?_, empty⟩
      exact frame.trans later fun _ => False.elim

/-- Outside of batches all that waits runs. -/
theorem strays_drained (keeps : KeepsScenes calls) (tidy : Tidy scene machine) (calm : Calm scene machine) (bound : Nat) :
    Ensures .any (flush calls bound) machine fun _ after => Strays scene machine after ∧ (machine.graph.depth = 0 → after.graph.queue = []) := by
  rw [flush]
  refine ensures_graph?_bind.2 ?_
  split
  next inBatch => exact ⟨.refl tidy, fun closed => absurd closed (Nat.ne_of_gt inBatch)⟩
  next outside =>
    have closed : machine.graph.depth = 0 := Nat.eq_zero_of_not_pos outside
    rw [ensures_withBatch]
    refine (tidy_drain keeps (calm closed) bound tidy.enterBatch (Nat.succ_pos _)).mono fun _ after drained => ?_
    obtain ⟨tidyAfter, frame, empty⟩ := drained
    have emptyLeft : (after.graph.leaveBatch false).queue = [] := by
      rw [leaveBatch_false]
      exact empty
    refine ⟨⟨⟨tidyAfter.leaveBatch, ?_, fun inBatch => absurd inBatch outside, fun _ _ => emptyLeft⟩, fun inBatch => absurd inBatch outside⟩, fun _ => emptyLeft⟩
    have left : (after.graph.leaveBatch false).vertices = after.graph.vertices := vertices_leaveBatch ..
    refine frame.regraph rfl rfl (fun _ live => live) (fun _ live => ?_) rfl rfl rfl rfl rfl (steady_left frame.steady) fun other lingers => frame.lingers other ?_
    · rw [leaveBatch_false]
      exact live
    · simpa only [Lingers, Graph.content?, Graph.sources, left] using lingers

end Rendering

end ReactiveMarkup
