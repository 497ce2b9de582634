import ReactiveMarkup.Proofs.SceneNodes

/-! Texts in a scene. A text that follows cells has a handle as soon as its effect has run for the first time, and keeps it
until it is unmounted. -/

namespace ReactiveMarkup.Rendering

open ReactiveMarkup.Step ReactiveMarkup.Graph ReactiveMarkup.Machine Tidy Stocked

variable {Memory : Type} {α β : Type} {about more : NodeId → Prop} {scene inner wide : Scene} {start between machine after : Stage Memory} {id kid : NodeId}
  {effect : Nat} {task : Task (Code Memory)} {calls : Calls (Host.rendering Memory)} {old new : Node (Code Memory)}

/-- What a step that only looks at the machine ensures. -/
theorem ensures_of_silent {breaks : Breaks} {step : Act Memory α} {post : α → Stage Memory → Prop} (panics : breaks.panics) (exhausts : breaks.exhausts)
    (silent : (step.run machine).2 = machine) (done : ∀ value, post value machine) : Ensures breaks step machine post := by
  unfold Ensures
  split
  next value after ran =>
    rw [ran] at silent
    cases silent
    exact done value
  · exact panics
  · exact exhausts

/-- A step on the document that moves no handle and leaves its listeners alone. -/
theorem ensures_edit_undisturbed {step : Document.Edit (Listener (Code Memory)) α} {post : α → Stage Memory → Prop}
    (leaves : Ensures .any step machine.document fun _ after => machine.document.Undisturbed after ∧ after.subscriptions = machine.document.subscriptions ∧
      after.nextSubscription = machine.document.nextSubscription)
    (done : ∀ value document, machine.document.Undisturbed document → document.subscriptions = machine.document.subscriptions → post value { machine with document }) :
    Ensures .any (edit step) machine post := by
  rw [ensures_edit]
  exact leaves.mono fun value document ⟨undisturbed, subscriptions, _⟩ => done value document undisturbed subscriptions

/-- A step on the document that is done. -/
theorem ensures_edit_of_done {breaks : Breaks} {step : Document.Edit (Listener (Code Memory)) α} {post : α → Stage Memory → Prop} {value : α}
    {document : Document (Listener (Code Memory))} (ran : step.run machine.document = (.done value, document)) (done : post value { machine with document }) :
    Ensures breaks (edit step) machine post := by
  rw [ensures_edit]
  unfold Ensures
  rw [ran]
  exact done

theorem ensures_node? {breaks : Breaks} {next : Option (Node (Code Memory)) → Act Memory β} {post : β → Stage Memory → Prop} :
    Ensures breaks (node? id >>= next) machine post ↔ Ensures breaks (next machine.nodes[id]?) machine post := Iff.rfl

theorem ensures_modifyText {breaks : Breaks} {node : TextNode (Code Memory)} (found : machine.nodes[id]? = some (.text node))
    (f : TextNode (Code Memory) → TextNode (Code Memory)) (post : Unit → Stage Memory → Prop) :
    Ensures breaks (modifyText id f) machine post ↔ post () (recording machine id (.text (f node))) := by
  rw [modifyText, ensures_node?_bind found]
  exact Iff.rfl

theorem Underway.edited {document : Document (Listener (Code Memory))} (underway : Underway inner scene about start machine) (undisturbed : machine.document.Undisturbed document)
    (subscriptions : document.subscriptions = machine.document.subscriptions) : Underway inner scene about start { machine with document } :=
  underway.edit fun stead here => (underway.tidy.placed stead here).undisturbed undisturbed fun subscription member new =>
    (underway.tidy.placed stead here).listening subscription (subscriptions ▸ member) new

/-! Handles are put in their place and taken away. -/

section

variable {target handle : Handle} {anchor : Anchor} (underway : Underway inner scene about start machine) (found : machine.nodes[id]? = some old) (isHandle : old.handle? = some handle)
  (hangs : Hangs inner machine id target anchor)

include underway found isHandle hangs

/-- The handle of a node is put where the node belongs. -/
theorem Underway.places (keeps : KeepsScenes calls) (behind : Anchor) :
    Ensures .any (calls.resolve behind >>= fun spot => Machine.edit (Document.mount [handle] target spot)) machine fun _ after =>
      after.nodes = machine.nodes ∧ after.graph = machine.graph ∧ Underway inner scene about start after ∧
        ∀ stead, inner.stead = some stead → after.document.ChildOf handle target := by
  have owns : Owns machine id handle := (owns_iff found).2 isHandle
  have owned : ∀ member ∈ [handle], ∃ owner anchor, Owns machine owner member ∧ Hangs inner machine owner target anchor := fun member among =>
    List.mem_singleton.1 among ▸ ⟨id, anchor, owns, hangs⟩
  rw [ensures_bind]
  refine ensures_of_silent trivial trivial (keeps.trees.resolve behind machine) fun spot => ?_
  rw [ensures_edit]
  unfold Ensures
  split
  next _ document done =>
    have placed (stead : Stead) (here : inner.stead = some stead) := underway.tidy.placed stead here
    refine ⟨rfl, rfl, underway.edit fun stead here => ?_, fun stead here => ?_⟩
    · exact (placed stead here).put owned here underway.tidy.arranged (List.nodup_singleton handle) ((placed stead here).known_home here hangs)
        ((placed stead here).owner_of_home here hangs) done
    · have movable := (placed stead here).movable_owned owned here underway.tidy.arranged (List.nodup_singleton handle) ((placed stead here).known_home here hangs)
      obtain ⟨putIn, _⟩ := (placed stead here).forest.of_mount movable done
      exact putIn.childOf.2 (by rw [if_pos (List.mem_singleton_self handle)])
  · trivial
  · trivial

/-- The handle of a node is taken away when nothing stands in it. -/
theorem Underway.displaces (busy : inner.Busy id)
    (dark : ∀ kid ∈ kids machine id, Clear inner machine kid ∧ ∀ other, Below machine kid other → ¬ On machine other) :
    Ensures .any (Machine.edit (Document.unmount [handle] target)) machine fun _ after =>
      after.nodes = machine.nodes ∧ after.graph = machine.graph ∧ Underway inner scene about start after ∧
        ∀ stead, inner.stead = some stead → after.document.parent? handle = none ∧ Document.Since stead.past (Operation.Retired handle) after.document := by
  have owns : Owns machine id handle := (owns_iff found).2 isHandle
  have owned : ∀ member ∈ [handle], ∃ owner anchor, Owns machine owner member ∧ Hangs inner machine owner target anchor := fun member among =>
    List.mem_singleton.1 among ▸ ⟨id, anchor, owns, hangs⟩
  rw [ensures_edit]
  unfold Ensures
  split
  next _ document done =>
    have placed (stead : Stead) (here : inner.stead = some stead) := underway.tidy.placed stead here
    have taken (stead : Stead) (here : inner.stead = some stead) : Document.TakenOut machine.document document ([handle].filter fun handle => machine.document.parent? handle == some target) ∧
        document.history = .remove [handle] target :: machine.document.history ∧ document.subscriptions = machine.document.subscriptions := by
      obtain ⟨later, ran, takenOut, history, subscriptions, _⟩ := (placed stead here).forest.unmount_cases target
        (fun member among => List.mem_singleton.1 among ▸ ((placed stead here).owned id handle owns).2) (List.nodup_singleton handle)
      cases done.symm.trans ran
      exact ⟨takenOut, history, subscriptions⟩
    refine ⟨rfl, rfl, underway.edit fun stead here => ?_, fun stead here => ⟨?_, ?_⟩⟩
    · obtain ⟨takenOut, history, subscriptions⟩ := taken stead here
      refine (placed stead here).take (fun member among => ⟨id, List.mem_singleton.1 among ▸ owns⟩) (fun member among owner ownsToo => ?_) takenOut history subscriptions
        ((placed stead here).owner_of_home here hangs)
      cases List.mem_singleton.1 among
      exact (placed stead here).sole owner id handle ownsToo owns ▸ busy
    · obtain ⟨takenOut, _⟩ := taken stead here
      refine Option.eq_none_iff_forall_ne_some.2 fun parent stands => ?_
      obtain ⟨apart, stood⟩ := takenOut.childOf.1 stands
      obtain ⟨_, again⟩ := (placed stead here).stands id handle parent owns stood
      obtain ⟨rfl, _⟩ := hangs.unique (placed stead here) underway.tidy.arranged here again
      refine apart (List.mem_filter.2 ⟨List.mem_singleton_self handle, ?_⟩)
      rw [show machine.document.parent? handle = some parent from stood, beq_self_eq_true]
    · obtain ⟨_, history, _⟩ := taken stead here
      exact (placed stead here).told.retired_of_takenOut ((placed stead here).owned id handle owns).1 ((placed stead here).children_eq_nil here owns dark)
        (List.mem_singleton_self handle) (Nat.ne_of_lt ((placed stead here).lt_of_owned owned here underway.tidy.arranged (List.mem_singleton_self handle))) history
  · trivial
  · trivial

end

/-- What is left of the record of a node that waits. -/
theorem Frame.exists_mold (frame : Frame scene about start machine) (busy : scene.Busy id) (found : start.nodes[id]? = some old) :
    ∃ later, machine.nodes[id]? = some later ∧ later.mold = old.mold := by
  have same := frame.busy id busy
  rw [found] at same
  exact Option.map_eq_some_iff.1 same

theorem Frame.exists_text {node : TextNode (Code Memory)} (frame : Frame scene about start machine) (busy : scene.Busy id)
    (found : start.nodes[id]? = some (.text node)) : ∃ handle, machine.nodes[id]? = some (.text { node with handle }) := by
  obtain ⟨later, foundLater, same⟩ := frame.exists_mold busy found
  cases later with
  | text later =>
    obtain ⟨source, handle, disposables⟩ := later
    obtain ⟨sourceToo, handleToo, disposablesToo⟩ := node
    injection same with same
    injection same with sameSource _ sameDisposables
    subst sameSource sameDisposables
    exact ⟨handle, foundLater⟩
  | _ => cases same

/-- The effect of a text is one that brings it up to date. -/
theorem Governs.of_text {node : TextNode (Code Memory)} (governs : Governs scene machine effect task) (found : machine.nodes[id]? = some (.text node))
    (isSubject : task.subject? = some id) : node.handle.isSome = true ∧ ∃ accessor, task = .text id accessor := by
  cases task with
  | text _ accessor =>
    cases isSubject
    obtain ⟨_, again, shown⟩ := governs
    cases found.symm.trans again
    exact ⟨shown, accessor, rfl⟩
  | branches =>
    cases isSubject
    obtain ⟨_, again, _⟩ := governs
    cases found.symm.trans again
  | items =>
    cases isSubject
    obtain ⟨_, again, _⟩ := governs
    cases found.symm.trans again
  | property | classes | host => cases isSubject

/-- The effect of a node that is being mounted is made and runs. -/
theorem mounts_effect (keeps : KeepsScenes calls) (rests : ¬ scene.Busy id) (calm : Calm scene start)
    (underway : Underway (scene.following id) scene (· = id) start machine) (idle : ∀ effect body, Drives machine.graph effect body → body.subject? ≠ some id)
    (renders : task.Renders) (formed : task.Formed) (isSubject : task.subject? = some id) (primed : Primed (scene.following id) machine task)
    (lodged : Lodged (scene.following id) machine task) :
    Ensures .any (newEffect calls task) machine fun effect after =>
      Underway ((scene.following id).holding (· = .effect effect)) scene (· = id) start after ∧ Frame (scene.following id) (· = id) machine after ∧
        start.graph.vertices.size ≤ effect ∧ ¬ scene.pending (.effect effect) ∧ Drives after.graph effect task := by
  have here {subject : NodeId} (same : task.subject? = some subject) : subject = id := Option.some.inj (same.symm.trans isSubject)
  have pausing : Tidy ((scene.following id).during task) machine := by
    refine underway.tidy.pausing (fun subject same => ?_) fun effect body subject drives isAbout same => ?_
    · exact underway.tidy.arranged.inside subject (.inl (.inr (here same)))
    · exact idle effect body drives (here same ▸ isAbout)
  have calmHere : Calm (scene.following id) machine := (Calm.following calm).carry underway.depth
  refine (ensures_ownEffect keeps pausing calmHere renders formed (fun _ same => .inr (here same)) (fun subject same isStill => ?_) (fun subject same kid member isOpened => ?_)
    primed lodged).mono fun effect after ⟨later, isNew, drives⟩ => ⟨?_, ?_, Nat.le_trans underway.frame.steady.size isNew, fun isPending => ?_, drives⟩
  · exact rests (.inr (here same ▸ isStill))
  · have isStill := underway.tidy.arranged.upward kid isOpened subject member
    exact rests (.inr (here same ▸ isStill))
  · exact underway.join later (fun _ => .inl) (fun _ isStill => isStill) (fun _ isPending => isPending) (fun _ isAbout _ => .inl (here isAbout.1)) (fun _ => .inl)
      rfl (fun _ _ _ guarded => guarded) fun _ _ _ _ hangs => hangs.congr rfl rfl fun _ _ _ guarded => guarded
  · exact later.frame.mono fun _ isAbout => here isAbout.1
  · exact absurd isNew (Nat.not_le.2 (underway.tidy.lt_size_of_stock (.inl isPending)))

section

variable (keeps : KeepsScenes calls) (tidy : Tidy scene machine) (movable : Movable scene machine id)

include tidy movable

theorem Tidy.following_at (found : machine.nodes[id]? = some old) : Tidy (scene.following id) machine :=
  tidy.following (inside_of_found found) movable.waiting

/-- What drives a node that rests is kept by it. -/
theorem Tidy.keeps_of_drives (drives : Drives machine.graph effect task) (isSubject : task.subject? = some id) : Keeps machine id (.effect effect) := by
  obtain ⟨_, subjects⟩ | ⟨keeper, isKept, subjects⟩ := (tidy.driven.steers effect task drives).kept
  · exact absurd (.inl (subjects id isSubject)) movable.rests
  · exact subjects id isSubject ▸ isKept

/-- Nothing drives a node that is not mounted. -/
theorem Tidy.idle_at (found : machine.nodes[id]? = some old) (off : old.isOn = false) (effect : Nat) (task : Task (Code Memory))
    (drives : Drives machine.graph effect task) : task.subject? ≠ some id :=
  tidy.undriven_of_off ((not_on_iff found).2 off) (fun isOpened => movable.rests (.inl isOpened)) drives

include keeps

/-! Texts. -/

/-- A text that is being mounted has a handle, and if it follows cells it keeps the effect for that. -/
structure Written (scene : Scene) (id : NodeId) (start machine : Stage Memory) (node : TextNode (Code Memory)) : Prop where
  underway : Underway (scene.following id) scene (· = id) start machine
  record : machine.nodes[id]? = some (.text node)
  shown : node.handle.isSome = true
  steered : ∀ effect task, Drives machine.graph effect task → task.subject? = some id → Keeps machine id (.effect effect)

omit keeps tidy movable in
/-- A text that has a handle is put in its place. -/
theorem Written.places {node : TextNode (Code Memory)} {target handle : Handle} {anchor : Anchor} (written : Written scene id start machine node) (keeps : KeepsScenes calls)
    (isHandle : node.handle = some handle) (hangs : Hangs (scene.following id) machine id target anchor) :
    Ensures .any (calls.resolve anchor >>= fun spot => edit (Document.mount [handle] target spot)) machine fun _ after => Mounted scene id start after := by
  obtain ⟨underway, found, shown, steered⟩ := written
  refine (underway.places found isHandle hangs keeps anchor).mono fun _ after ⟨nodes, graph, underway, stands⟩ => ?_
  have foundAfter : after.nodes[id]? = some (.text node) := nodes ▸ found
  have on : On after id := ⟨_, foundAfter, shown⟩
  refine ⟨underway.leave foundAfter (.mounted shown trivial trivial) (fun effect task drives isSubject => ⟨?_, on⟩) fun stead here other isOther => ⟨target, ?_⟩, on⟩
  · exact (keeps_congr nodes id _).2 (steered effect task (graph ▸ drives) isSubject)
  · cases isHandle.symm.trans isOther
    exact stands stead here

theorem writes_shown {node : TextNode (Code Memory)} (calm : Calm scene machine) (found : machine.nodes[id]? = some (.text node)) (off : node.handle = none)
    {accessor : Accessor (Code Memory)} (isDynamic : node.source = .dynamic accessor) {target : Handle} {anchor : Anchor} (hangs : Hangs scene machine id target anchor) :
    Ensures .any (newEffect calls (.text id accessor) >>= fun effect => modifyText id fun node => { node with disposables := node.disposables ++ [.effect effect] })
      machine fun _ after => ∃ node, Written scene id machine after node ∧ Hangs (scene.following id) after id target anchor := by
  have hosted : node.source.accessor.Hosted := tidy.upright.formed id _ found
  have formed : (Task.text id accessor : Task (Code Memory)).Formed := by
    rw [isDynamic] at hosted
    exact hosted
  have renders : (Task.text id accessor : Task (Code Memory)).Renders := trivial
  have isOff : (Node.text node).isOn = false := by
    rw [Node.isOn, off]
    rfl
  have primed : Primed (scene.following id) machine (.text id accessor) := ⟨node, found, .inr (.inr rfl)⟩
  have hangsHere : Hangs (scene.following id) machine id target anchor := hangs.congr rfl rfl fun _ _ _ guarded => guarded
  have lodged : Lodged (scene.following id) machine (.text id accessor) := fun stead here => by
    refine ⟨⟨target, anchor, hangsHere⟩, fun subject handle isSubject owns rests => ?_⟩
    cases isSubject
    exact absurd (.inl (.inr rfl)) rests
  rw [ensures_bind]
  refine (mounts_effect keeps movable.rests calm (.refl (tidy.following_at movable found)) (tidy.idle_at movable found isOff) renders formed rfl primed lodged).mono
    fun effect between ⟨underway, frame, isNew, fresh, drives⟩ => ?_
  obtain ⟨handle, foundBetween⟩ := frame.exists_text (.inl (.inr rfl)) found
  rw [ensures_modifyText foundBetween]
  have shown : handle.isSome = true := by
    obtain ⟨_, again, isShown⟩ := (underway.tidy.driven.steers effect _ drives).governs
    cases foundBetween.symm.trans again
    exact isShown
  have adopted : Underway (scene.following id) scene (· = id) machine
      (recording between id (.text { node with handle, disposables := node.disposables ++ [.effect effect] })) := by
    refine underway.adopt foundBetween rfl hosted trivial rfl (.inl (.inr rfl)) (fun isStill => movable.rests (.inr isStill))
      (fun isOpened => movable.rests (.inl isOpened)) (.inr rfl) nofun rfl fresh drives (fun _ same => (Option.some.inj same).symm) isNew ?_ rfl .inl
    intro other task drivesOther isSubject governs
    obtain ⟨_, accessor, rfl⟩ := governs.of_text foundBetween isSubject
    exact ⟨_, recording_self foundBetween, shown⟩
  have foundAfter : (recording between id (.text { node with handle, disposables := node.disposables ++ [.effect effect] })).nodes[id]? = _ := recording_self foundBetween
  refine ⟨_, ⟨adopted, foundAfter, shown, fun other task drivesOther isSubject => ?_⟩, ?_⟩
  · obtain rfl : effect = other := underway.tidy.driven.sole effect other _ task id drives drivesOther rfl isSubject
    exact (keeps_iff foundAfter).2 (List.mem_append_right _ (List.mem_singleton_self _))
  · exact (frame.hung id target anchor (.inl (.inr rfl)) hangsHere).record foundBetween (.inl (.inr rfl)) (.inl fun _ _ _ _ _ puts => puts)

omit keeps in
theorem writes_fixed {node : TextNode (Code Memory)} (found : machine.nodes[id]? = some (.text node)) (off : node.handle = none) (content : String)
    {target : Handle} {anchor : Anchor} (hangs : Hangs scene machine id target anchor) :
    Ensures .any (edit (Document.createText content) >>= fun handle => modifyText id fun node => { node with handle := some handle }) machine
      fun _ after => ∃ node, Written scene id machine after node ∧ Hangs (scene.following id) after id target anchor := by
  have isOff : (Node.text node).isOn = false := by
    rw [Node.isOn, off]
    rfl
  have opening := tidy.opening_off movable found isOff
  have station := movable.station tidy found
  have begun : Underway (scene.opening id) scene (· = id) machine machine := .refl opening
  have hosted : node.source.accessor.Hosted := tidy.upright.formed id _ found
  obtain ⟨document, ran, undisturbed, grown, subscriptions, _⟩ := Document.undisturbed_createText content machine.document
  rw [ensures_bind]
  refine ensures_edit_of_done ran ?_
  have foundBetween : ({ machine with document } : Stage Memory).nodes[id]? = some (.text node) := found
  rw [ensures_modifyText foundBetween]
  have edited := begun.edited undisturbed subscriptions
  have written : Underway (scene.opening id) scene (· = id) machine
      (recording { machine with document } id (.text { node with handle := some machine.document.items.size })) :=
    station.rewrite edited foundBetween rfl hosted trivial List.nodup_nil (fun _ member => .inl member)
      (fun isOpened => absurd (.inl isOpened) movable.rests) (.inl ⟨.inr rfl, rfl⟩) (fun _ => Iff.rfl)
      fun stead here => .create (fun _ same => by cases same) rfl (opening.placed stead here) here undisturbed grown hangs.opening off rfl (fun _ _ _ _ _ never => never) fun kid key guarded =>
        movable.rests (.inr (scene.guards id kid key guarded))
  have foundAfter : (recording { machine with document } id (.text { node with handle := some machine.document.items.size })).nodes[id]? = _ :=
    recording_self foundBetween
  refine ⟨_, ⟨written.resume tidy movable, foundAfter, rfl, fun effect task drives isSubject => ?_⟩, ?_⟩
  · exact absurd (.inr rfl) ((written.tidy.driven.steers effect task drives).paused id isSubject)
  · have hangsHere : Hangs (scene.following id) ({ machine with document } : Stage Memory) id target anchor := hangs.congr rfl rfl fun _ _ _ guarded => guarded
    exact hangsHere.record foundBetween (.inl (.inr rfl)) (.inl fun _ _ _ _ _ puts => puts)

theorem mounts_text {node : TextNode (Code Memory)} (calm : Calm scene machine) (found : machine.nodes[id]? = some (.text node)) (off : node.handle = none)
    {target : Handle} {anchor : Anchor} (hangs : Hangs scene machine id target anchor) :
    Ensures .any (mountText calls id node target anchor) machine fun _ after => Mounted scene id machine after := by
  unfold mountText
  split
  next value _ =>
    rw [← LawfulMonad.bind_assoc, ensures_bind]
    refine (writes_fixed tidy movable found off value.text hangs).mono fun _ between ⟨⟨source, shown, disposables⟩, written, hangs⟩ => ensures_node?.2 ?_
    rw [written.record]
    cases shown with
    | none => cases written.shown
    | some handle => exact written.places keeps rfl hangs
  next accessor isDynamic =>
    rw [← LawfulMonad.bind_assoc, ensures_bind]
    refine (writes_shown keeps tidy movable calm found off isDynamic hangs).mono fun _ between ⟨⟨source, shown, disposables⟩, written, hangs⟩ => ensures_node?.2 ?_
    rw [written.record]
    cases shown with
    | none => cases written.shown
    | some handle => exact written.places keeps rfl hangs

theorem unmounts_text {node : TextNode (Code Memory)} (found : machine.nodes[id]? = some (.text node)) {target : Handle}
    (hangs : ∃ anchor, Hangs scene machine id target anchor) :
    Ensures .any (unmountText calls id node target) machine fun _ after => Unmounted scene id machine after := by
  have hosted : node.source.accessor.Hosted := tidy.upright.formed id _ found
  obtain ⟨anchor, hangs⟩ := hangs
  unfold unmountText
  split
  next off =>
    refine ⟨.refl tidy, (not_on_iff found).2 ?_⟩
    rw [Node.isOn, off]
    rfl
  next handle shown =>
    have begun : Underway (scene.following id) scene (· = id) machine machine := .refl (tidy.following_at movable found)
    have kidless {kid : NodeId} {p : Prop} (member : kid ∈ kids machine id) : p := absurd ((mem_kids found).1 member) List.not_mem_nil
    rw [ensures_bind]
    refine (begun.displaces found shown (hangs.congr rfl rfl fun _ _ _ guarded => guarded) (.inl (.inr rfl)) fun kid member => kidless member).mono
      fun _ away ⟨nodes, graph, displaced, gone⟩ => ?_
    have foundBetween : away.nodes[id]? = some (.text node) := nodes ▸ found
    rw [ensures_bind, ensures_modifyText foundBetween, ensures_bind]
    have same : blank (.text { node with disposables := [] }) = blank (.text node) := rfl
    refine (displaced.emptied keeps foundBetween same hosted trivial rfl (.inr rfl) movable.rests rfl nofun rfl rfl
      (fun other task drives isSubject governs => ?_) rfl).mono ?_
    rotate_left
    · refine fun _ between ⟨underway, nodesLater, undisturbed, dropped⟩ => ?_
      have foundLater : between.nodes[id]? = some (.text { node with disposables := [] }) := by
        rw [nodesLater]
        exact recording_self foundBetween
      rw [ensures_modifyText foundLater]
      have idle (effect : Nat) (task : Task (Code Memory)) (drives : Drives between.graph effect task) : task.subject? ≠ some id := by
        intro isSubject
        obtain ⟨old, apart⟩ := dropped effect task drives
        exact apart ((keeps_iff found).1 (tidy.keeps_of_drives movable (graph ▸ old) isSubject))
      have halted := underway.halt idle
      have written : Underway (scene.opening id) scene (· = id) machine (recording between id (.text { node with disposables := [], handle := none })) :=
        (movable.station tidy found).rewrite halted foundLater rfl hosted trivial List.nodup_nil (fun _ member => .inl member)
          (fun isOpened => absurd (.inl isOpened) movable.rests) (.inl ⟨.inr rfl, rfl⟩) (fun _ => Iff.rfl)
          fun stead here => .disown (fun _ same => by cases same) rfl nofun rfl rfl (fun _ _ _ _ _ never => never) fun other isHandle => by
            obtain rfl : handle = other := Option.some.inj (shown.symm.trans isHandle)
            obtain ⟨stands, retired⟩ := gone stead here
            exact ⟨undisturbed.parents ▸ stands, retired.undisturbed undisturbed⟩
      refine ⟨written.close tidy movable (recording_self foundLater) (.unmounted rfl nofun rfl) nofun, fun on => ?_⟩
      cases (on_recording_self foundLater).1 on
    · obtain ⟨isShown, accessor, rfl⟩ := governs.of_text foundBetween isSubject
      exact ⟨_, recording_self foundBetween, isShown⟩

end

/-! What effects of elements and texts do. -/

/-- A step beside the trees leaves the effect under way alone. -/
theorem Tidy.live_aside (tidy : Tidy inner machine) (aside : Aside.plain machine after) (stock : Stock inner machine effect) (live : machine.graph.IsLive effect) :
    after.graph.IsLive effect := by
  obtain ⟨record, found, awake⟩ := live
  exact ⟨record, aside.spared effect record (fun never => never) (tidy.not_mem_effects aside stock) found awake, awake⟩

theorem Assigned.stock (assigned : Assigned scene machine effect task) : Stock (scene.during task) machine effect :=
  assigned.imp And.left fun ⟨id, isKept, _⟩ => ⟨id, isKept⟩

/-- The body of an effect that does no more than code does. -/
theorem Performed.of_strays (assigned : Assigned scene machine effect task) (tidy : Tidy (scene.during task) machine) (inBatch : 0 < machine.graph.depth)
    (live : machine.graph.IsLive effect) (lodged : Lodged scene machine task) (strays : Strays (scene.during task) machine after) (governs : Governs scene after effect task) :
    Performed scene effect task machine after := by
  have aside := strays.aside inBatch
  refine ⟨strays.tidy, ?_, aside.attends, tidy.live_aside aside assigned.stock live, fun id => (keeps_congr aside.nodes id _).2, governs,
    lodged.carry aside.nodes aside.document rfl (fun _ _ _ guarded => guarded) fun _ busy => busy⟩
  have begun : Frame scene (fun id => task.subject? = some id ∧ ¬ On machine id) machine machine := .refl machine
  exact begun.join strays.frame (fun _ isOpened => isOpened) (fun _ => .inl) (fun _ isPending => isPending) (fun _ never => never.elim) (fun _ => .inl)
    rfl (fun _ _ _ guarded => guarded) fun _ _ _ _ hangs => hangs.congr rfl rfl fun _ _ _ guarded => guarded

/-- The body of an effect changes the document where no handle moves. -/
theorem Performed.edited {document : Document (Listener (Code Memory))} (performed : Performed scene effect task machine after) (undisturbed : after.document.Undisturbed document)
    (subscriptions : document.subscriptions = after.document.subscriptions) : Performed scene effect task machine { after with document } := by
  obtain ⟨tidy, frame, attends, live, keeps, governs, lodged⟩ := performed
  have same : document.ChildOf = after.document.ChildOf := by
    funext handle parent
    rw [Document.ChildOf, Document.ChildOf, undisturbed.parents]
  refine ⟨tidy.redocument fun stead here => (tidy.placed stead here).undisturbed undisturbed fun subscription member new => ?_,
    frame.regraph rfl rfl (fun _ live => live) (fun _ live => live) rfl rfl rfl rfl rfl frame.steady frame.lingers, attends, live, keeps, ?_, fun stead here => ?_⟩
  · exact (tidy.placed stead here).listening subscription (subscriptions ▸ member) new
  · have attends : after.graph.Attends (fun _ => False) after.graph := .refl _
    have inside := after.graph.lt_size_of_content? live.choose_spec.1
    have nodes : ({ after with document } : Stage Memory).nodes = after.nodes := rfl
    exact governs.of_attends nodes attends (fun never => never) live inside
  · obtain ⟨fits, stands⟩ := lodged stead here
    refine ⟨fits.congr rfl undisturbed.size rfl fun _ _ _ guarded => guarded, fun subject handle isSubject owns rests => ?_⟩
    show ∃ target, document.ChildOf handle target
    rw [same]
    exact stands subject handle isSubject owns rests

section

variable (keeps : KeepsScenes calls) (tidy : Tidy scene machine) (calm : Calm scene machine)

include keeps tidy calm

theorem strays_access {accessor : Accessor (Code Memory)} (hosted : accessor.Hosted) :
    Ensures .any (access calls accessor) machine fun _ after => Strays scene machine after := by
  cases accessor with
  | constant value => exact .refl tidy
  | plan => exact hosted.elim
  | host code => exact keeps.call code [] tidy calm

theorem strays_activeClasses {sources : List (ClassSource (Code Memory))} (hosted : ∀ source ∈ sources, source.binding.accessor.Hosted) :
    Ensures .any (activeClasses calls sources) machine fun _ after => Strays scene machine after := by
  induction sources generalizing machine with
  | nil => exact .refl tidy
  | cons first rest ih =>
    have hostedFirst := hosted first List.mem_cons_self
    have later {between : Stage Memory} (strays : Strays scene machine between) : Ensures .any (activeClasses calls rest) between fun _ after => Strays scene machine after :=
      strays.go (ih strays.tidy (calm.carry strays.depth) fun source inRest => hosted source (List.mem_cons_of_mem _ inRest))
    cases first with
    | names binding =>
      rw [activeClasses, ensures_bind]
      refine (strays_access keeps tidy calm hostedFirst).mono fun _ _ strays => ?_
      rw [ensures_bind]
      exact (later strays).mono fun _ _ strays => strays
    | toggle name binding =>
      rw [activeClasses, ensures_bind]
      refine (strays_access keeps tidy calm hostedFirst).mono fun _ _ strays => ?_
      rw [ensures_bind]
      exact (later strays).mono fun _ _ strays => strays

end

section

variable (keeps : KeepsScenes calls) (inBatch : 0 < machine.graph.depth) (live : machine.graph.IsLive effect)

include keeps inBatch live

/-- The body of an effect of a property sets it. -/
theorem performs_property {name : String} {accessor : Accessor (Code Memory)} {handle : Handle} (formed : accessor.Hosted)
    (assigned : Assigned scene machine effect (.property name accessor handle)) (tidy : Tidy (scene.during (.property name accessor handle)) machine)
    (lodged : Lodged scene machine (.property name accessor handle)) :
    Ensures .any (access calls accessor >>= fun value => edit (Document.setProperty name value handle)) machine fun _ after =>
      Performed scene effect (.property name accessor handle) machine after := by
  rw [ensures_bind]
  refine (strays_access keeps tidy (calm_of_inBatch inBatch) formed).mono fun value between strays => ?_
  have performed : Performed scene effect (.property name accessor handle) machine between := .of_strays assigned tidy inBatch live lodged strays trivial
  exact ensures_edit_undisturbed (Document.ensures_setProperty name value handle between.document) fun _ _ undisturbed subscriptions => performed.edited undisturbed subscriptions

/-- The body of an effect of classes sets them. -/
theorem performs_classes {sources : List (ClassSource (Code Memory))} {handle : Handle} (hosted : ∀ source ∈ sources, source.binding.accessor.Hosted)
    (assigned : Assigned scene machine effect (.classes sources handle)) (tidy : Tidy (scene.during (.classes sources handle)) machine)
    (lodged : Lodged scene machine (.classes sources handle)) :
    Ensures .any (refreshClasses calls sources handle) machine fun _ after => Performed scene effect (.classes sources handle) machine after := by
  rw [refreshClasses, ensures_bind]
  refine (strays_activeClasses keeps tidy (calm_of_inBatch inBatch) hosted).mono fun names between strays => ?_
  rw [ensures_bind]
  have named : Strays (scene.during (.classes sources handle)) machine { between with nextIdentity := between.nextIdentity + 1 } := strays.carry rfl rfl rfl rfl rfl
  have performed : Performed scene effect (.classes sources handle) machine { between with nextIdentity := between.nextIdentity + 1 } :=
    .of_strays assigned tidy inBatch live lodged named trivial
  exact ensures_edit_undisturbed (Document.ensures_setProperty "class" _ handle between.document) fun _ _ undisturbed subscriptions => performed.edited undisturbed subscriptions

/-- The body of an effect of a text shows what the text says. It creates a handle when it runs for the first time. -/
theorem performs_text {accessor : Accessor (Code Memory)} (formed : accessor.Hosted) (assigned : Assigned scene machine effect (.text id accessor)) (paused : ¬ scene.still id)
    (tidy : Tidy (scene.during (.text id accessor)) machine) (primed : Primed scene machine (.text id accessor)) (lodged : Lodged scene machine (.text id accessor)) :
    Ensures .any (refreshText calls id accessor) machine fun _ after => Performed scene effect (.text id accessor) machine after := by
  obtain ⟨node, found, shown⟩ := primed
  have hosted : node.source.accessor.Hosted := tidy.upright.formed id _ found
  rw [refreshText, ensures_bind]
  refine (strays_access keeps tidy (calm_of_inBatch inBatch) formed).mono fun value between strays => ensures_node?.2 ?_
  have aside := strays.aside inBatch
  have foundBetween : between.nodes[id]? = some (.text node) := aside.nodes ▸ found
  rw [foundBetween]
  dsimp only
  split
  next handle isHandle =>
    have performed : Performed scene effect (.text id accessor) machine between := .of_strays assigned tidy inBatch live lodged strays ⟨node, foundBetween, by rw [isHandle]; rfl⟩
    exact ensures_edit_undisturbed (Document.ensures_setText value.text handle between.document) fun _ _ undisturbed subscriptions => performed.edited undisturbed subscriptions
  next off =>
    have isOpened : scene.opened id := shown.resolve_left (by rw [off]; exact Bool.false_ne_true)
    have isOff : ¬ On machine id := by
      rw [not_on_iff found, Node.isOn, off]
      rfl
    obtain ⟨document, ran, undisturbed, grown, subscriptions, _⟩ := Document.undisturbed_createText value.text between.document
    rw [ensures_bind]
    refine ensures_edit_of_done ran ?_
    have foundLater : ({ between with document } : Stage Memory).nodes[id]? = some (.text node) := foundBetween
    rw [ensures_modifyText foundLater]
    have station : Station scene (scene.during (.text id accessor)) id machine := by
      refine Alone.station (fun kid member => ?_) tidy rfl paused
      exact absurd ((mem_kids found).1 member) List.not_mem_nil
    have begun : Underway (scene.during (.text id accessor)) scene (fun other => (Task.text id accessor : Task (Code Memory)).subject? = some other ∧ ¬ On machine other) machine between :=
      (Underway.refl tidy).within station strays.toUnderway fun _ never => never.elim
    have edited := begun.edited undisturbed subscriptions
    have later := lodged.carry aside.nodes aside.document rfl (fun _ _ _ guarded => guarded) fun _ busy => busy
    have written : Underway (scene.during (.text id accessor)) scene (fun other => (Task.text id accessor : Task (Code Memory)).subject? = some other ∧ ¬ On machine other)
        machine (recording { between with document } id (.text { node with handle := some between.document.items.size })) := by
      refine station.rewrite edited foundLater rfl hosted trivial List.nodup_nil (fun _ member => .inl member) (fun _ => rfl) (.inl ⟨isOpened, rfl, isOff⟩) (fun _ => Iff.rfl) fun stead here => ?_
      obtain ⟨⟨target, anchor, hangs⟩, _⟩ := later stead here
      exact .create (fun _ same => by cases same) rfl (begun.tidy.placed stead here) here undisturbed grown (hangs.congr rfl rfl fun _ _ _ guarded => guarded) off rfl (fun _ _ _ _ _ never => never)
        fun kid key guarded => paused (scene.guards id kid key guarded)
    have liveBetween : between.graph.IsLive effect := tidy.live_aside aside assigned.stock live
    refine ⟨written.tidy, written.frame, written.attends inBatch, liveBetween, fun keeper isKept => ?_, ⟨_, recording_self foundLater, rfl⟩,
      fun stead here => ⟨?_, fun subject handle isSubject _ rests => ?_⟩⟩
    · have same : (Node.text { node with handle := some between.document.items.size } : Node (Code Memory)).disposables = (Node.text node).disposables := rfl
      exact (keeps_recording foundLater same keeper _).2 ((keeps_congr aside.nodes keeper _).2 isKept)
    · obtain ⟨⟨target, anchor, hangs⟩, _⟩ := later stead here
      have hangsLater : Hangs scene ({ between with document } : Stage Memory) id target anchor := hangs.congr rfl rfl fun _ _ _ guarded => guarded
      exact ⟨target, anchor, hangsLater.record foundLater (.inl isOpened) (.inl fun _ _ _ _ _ puts => puts)⟩
    · cases isSubject
      exact absurd (.inl isOpened) rests

end

end ReactiveMarkup.Rendering
