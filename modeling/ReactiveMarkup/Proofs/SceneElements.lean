import ReactiveMarkup.Proofs.SceneTexts

/-! Elements in a scene. What follows cells for an element is kept by it, from when it is set up until the element is
unmounted, after what it shows. -/

namespace ReactiveMarkup.Rendering

open ReactiveMarkup.Step ReactiveMarkup.Graph ReactiveMarkup.Machine Tidy Stocked

variable {Memory : Type} {α β : Type} {scene inner : Scene} {start between machine after : Stage Memory} {id kid : NodeId}
  {effect : Nat} {task : Task (Code Memory)} {calls : Calls (Host.rendering Memory)} {node : ElementNode (Code Memory)} {handle : Handle}

theorem ensures_modifyElement {breaks : Breaks} (found : machine.nodes[id]? = some (.element node))
    (f : ElementNode (Code Memory) → ElementNode (Code Memory)) (post : Unit → Stage Memory → Prop) :
    Ensures breaks (modifyElement id f) machine post ↔ post () (recording machine id (.element (f node))) := by
  rw [modifyElement, ensures_node?_bind found]
  exact Iff.rfl

theorem binding_of_classSource? {property : String × Binding (Code Memory)} {source : ClassSource (Code Memory)}
    (isSource : @classSource? (Host.rendering Memory) property = some source) : source.binding = property.2 := by
  unfold classSource? at isSource
  split at isSource
  · cases isSource
    rfl
  split at isSource
  · cases isSource
    rfl
  · cases isSource

/-- An element that is being mounted has a handle and may have been given some effects. What it shows is not mounted yet. -/
structure Setting (scene : Scene) (id : NodeId) (node : ElementNode (Code Memory)) (handle target : Handle) (anchor : Anchor) (start machine : Stage Memory) : Prop where
  underway : Underway (scene.opening id) scene (· = id) start machine
  record : ∃ disposables, machine.nodes[id]? = some (.element { node with handle := some handle, disposables })
  off : ∀ child ∈ node.child, ¬ On machine child
  hangs : Hangs (scene.opening id) machine id target anchor

namespace Setting

variable {target : Handle} {anchor : Anchor}

theorem setProperty (setting : Setting scene id node handle target anchor start machine) (name : String) (value : Value) :
    Ensures .any (Machine.edit (Document.setProperty name value handle)) machine fun _ after => Setting scene id node handle target anchor start after :=
  ensures_edit_undisturbed (Document.ensures_setProperty name value handle machine.document) fun _ _ undisturbed subscriptions =>
    ⟨setting.underway.edited undisturbed subscriptions, setting.record, setting.off, setting.hangs.congr rfl rfl fun _ _ _ guarded => guarded⟩

theorem forM {τ : Type} {members : List τ} {f : τ → Act Memory PUnit} (setting : Setting scene id node handle target anchor start machine)
    (each : ∀ member ∈ members, ∀ machine, Setting scene id node handle target anchor start machine →
      Ensures .any (f member) machine fun _ after => Setting scene id node handle target anchor start after) :
    Ensures .any (members.forM f) machine fun _ after => Setting scene id node handle target anchor start after := by
  induction members generalizing machine with
  | nil => exact setting
  | cons first rest ih =>
    rw [ensures_forM_cons]
    exact (each first List.mem_cons_self machine setting).mono fun _ _ setting => ih setting fun member inRest => each member (List.mem_cons_of_mem _ inRest)

end Setting

/-- A listener is set up that is to be kept by a node. -/
theorem Underway.subscribed {about : NodeId → Prop} {document : Document (Listener (Code Memory))} {subscription : Document.Subscription (Listener (Code Memory))}
    (underway : Underway inner scene about start machine) (undisturbed : machine.document.Undisturbed document)
    (subscriptions : document.subscriptions = machine.document.subscriptions ++ [subscription]) :
    Underway (inner.holding (· = .subscription subscription.id)) scene about start { machine with document } := by
  have held : Tidy (inner.holding (· = .subscription subscription.id)) machine := by
    refine underway.tidy.rescene underway.tidy.arranged.inside underway.tidy.arranged.upward (fun _ _ _ busy rests => absurd busy rests) (fun _ isPending => isPending.resolve_right nofun)
      (fun effect task _ steers => ⟨steers.kept.imp_left fun ⟨isPending, subjects⟩ => ⟨.inl isPending, subjects⟩, steers.paused, steers.governs.rescene fun _ _ => .inl⟩) fun stead here => ?_
    exact (underway.tidy.placed stead here).rescene rfl (fun _ _ _ => Iff.rfl) (fun _ _ _ rests busy => absurd busy rests) fun _ _ isPending => .inl (.inl isPending)
  have holding : Underway (inner.holding (· = .subscription subscription.id)) scene about start machine := { underway with tidy := held }
  refine holding.edit fun stead here => (held.placed stead here).undisturbed undisturbed fun other member new => ?_
  rw [subscriptions] at member
  obtain old | isNew := List.mem_append.1 member
  · exact (held.placed stead here).listening other old new
  · exact .inl (.inr (by rw [List.mem_singleton.1 isNew]))

section

variable {target : Handle} {anchor : Anchor} (keeps : KeepsScenes calls) (tidy : Tidy scene start) (movable : Movable scene start id)
  (found : start.nodes[id]? = some (.element node)) (setting : Setting scene id node handle target anchor start machine)

include tidy movable found setting

theorem sets_effect (keeps : KeepsScenes calls) (calm : Calm scene start) (renders : task.Renders) (formed : task.Formed) (subjectless : task.subject? = none)
    (primed : Primed (scene.opening id) machine task) (fits : machine.document.Known handle → Fits (scene.opening id) machine task) :
    Ensures .any (newEffect calls task >>= fun effect => keepForElement id (.effect effect)) machine fun _ after =>
      Setting scene id node handle target anchor start after := by
  obtain ⟨underway, ⟨disposables, foundMachine⟩, off, hangs⟩ := setting
  have hosted : ∀ property ∈ node.properties, property.2.accessor.Hosted := tidy.upright.formed id _ found
  have never {id : NodeId} {p : Prop} (isSubject : task.subject? = some id) : p := by cases subjectless.symm.trans isSubject
  have pausing : Tidy ((scene.opening id).during task) machine := underway.tidy.pausing (fun _ => never) fun _ _ _ _ _ => never
  have calmHere : Calm (scene.opening id) machine := (Calm.opening calm).carry underway.depth
  have lodged : Lodged (scene.opening id) machine task := fun stead here => by
    have owns : Owns machine id handle := (owns_iff foundMachine).2 rfl
    exact ⟨fits ((underway.tidy.placed stead here).owned id handle owns).2, fun _ _ => never⟩
  rw [ensures_bind]
  refine (ensures_ownEffect keeps pausing calmHere renders formed (fun _ => never) (fun _ => never) (fun _ => never) primed lodged).mono fun effect after ⟨later, isNew, drives⟩ => ?_
  have foundAfter : after.nodes[id]? = some (.element { node with handle := some handle, disposables }) := (later.frame.still id (.inr rfl)).trans foundMachine
  rw [keepForElement, ensures_modifyElement foundAfter]
  have fresh : ¬ (scene.opening id).pending (.effect effect) := fun isPending =>
    absurd isNew (Nat.not_le.2 (underway.tidy.lt_size_of_stock (.inl isPending)))
  have sofar : Underway ((scene.opening id).holding (· = .effect effect)) scene (· = id) start after :=
    underway.join later (fun _ => .inl) (fun _ => .inl) (fun _ isPending => isPending) (fun _ isAbout _ => never isAbout.1) (fun _ => .inl)
      rfl (fun _ _ _ guarded => guarded) fun _ _ _ _ hangs => hangs.congr rfl rfl fun _ _ _ guarded => guarded
  refine ⟨?_, ⟨_, recording_self foundAfter⟩, fun child member on => ?_,
    (later.frame.hung id target anchor (.inr (.inr rfl)) hangs).record foundAfter (.inr (.inr rfl)) (.inl fun _ _ _ _ _ puts => puts)⟩
  · refine sofar.adopt foundAfter rfl hosted trivial rfl (.inr (.inr rfl)) (fun isStill => movable.rests (.inr isStill)) (fun isOpened => movable.rests (.inl isOpened))
      (.inr rfl) (fun _ _ _ => .inr rfl) rfl fresh drives (fun _ => never) (Nat.le_trans underway.frame.steady.size isNew) (fun other task drives isSubject _ => ?_) rfl .inl
    exact absurd (.inr rfl) ((later.tidy.driven.steers other task drives).paused id isSubject)
  · have isKid : child ∈ kids machine id := (mem_kids foundMachine).2 (Option.mem_toList.2 member)
    have apart : child ≠ id := underway.tidy.apart foundMachine (Option.mem_toList.2 member)
    have same := later.frame.on_kid underway.tidy.arranged underway.tidy.upright (.inr rfl) isKid fun isAbout => never isAbout.1
    exact off child member (same.1 ((on_recording_of_ne apart).1 on))

/-- A listener for an element is set up and kept by it. -/
theorem sets_listener (event : String) (listener : Listener (Code Memory)) :
    Ensures .any (edit (Document.subscribe event listener handle) >>= fun subscription => keepForElement id (.subscription subscription)) machine fun _ after =>
      Setting scene id node handle target anchor start after := by
  obtain ⟨underway, ⟨disposables, foundMachine⟩, off, hangs⟩ := setting
  have hosted : ∀ property ∈ node.properties, property.2.accessor.Hosted := tidy.upright.formed id _ found
  obtain ⟨document, ran, undisturbed, subscriptions, _⟩ := Document.undisturbed_subscribe event listener handle machine.document
  rw [ensures_bind]
  refine ensures_edit_of_done ran ?_
  have foundEdited : ({ machine with document } : Stage Memory).nodes[id]? = some (.element { node with handle := some handle, disposables }) := foundMachine
  rw [keepForElement, ensures_modifyElement foundEdited]
  have hangsEdited : Hangs (scene.opening id) ({ machine with document } : Stage Memory) id target anchor := hangs.congr rfl rfl fun _ _ _ guarded => guarded
  refine ⟨?_, ⟨_, recording_self foundEdited⟩, fun child member on => ?_, hangsEdited.record foundEdited (.inr (.inr rfl)) (.inl fun _ _ _ _ _ puts => puts)⟩
  · have held := underway.subscribed undisturbed subscriptions
    refine held.keep foundEdited rfl hosted trivial rfl (.inr (.inr rfl)) (fun isStill => movable.rests (.inr isStill)) (fun isOpened => movable.rests (.inl isOpened))
      (.inr rfl) (fun _ _ _ => .inr rfl) rfl nofun (fun other task drives isSubject _ => ?_) rfl .inl
    exact absurd (.inr rfl) ((underway.tidy.driven.steers other task drives).paused id isSubject)
  · have apart : child ≠ id := underway.tidy.apart foundMachine (Option.mem_toList.2 member)
    exact off child member ((on_recording_of_ne apart).1 on)

theorem sets_property (keeps : KeepsScenes calls) (calm : Calm scene start) {property : String × Binding (Code Memory)} (hosted : property.2.accessor.Hosted) :
    Ensures .any (bindProperty calls id handle property) machine fun _ after => Setting scene id node handle target anchor start after := by
  obtain ⟨name, value | accessor⟩ := property
  · exact setting.setProperty name value
  · have formed : (Task.property name accessor handle : Task (Code Memory)).Formed := hosted
    have renders : (Task.property name accessor handle : Task (Code Memory)).Renders := trivial
    exact sets_effect tidy movable found setting keeps calm renders formed rfl trivial fun known => known

theorem sets_properties (keeps : KeepsScenes calls) (calm : Calm scene start) :
    Ensures .any (bindProperties calls id handle node.properties) machine fun _ after => Setting scene id node handle target anchor start after := by
  have hosted : ∀ property ∈ node.properties, property.2.accessor.Hosted := tidy.upright.formed id _ found
  rw [bindProperties, ensures_bind]
  refine (setting.forM fun property member machine setting => ?_).mono fun _ between setting => ?_
  · exact sets_property tidy movable found setting keeps calm (hosted property (List.mem_of_mem_filter member))
  · dsimp only
    split
    · have formed : (Task.classes (List.filterMap (@classSource? (Host.rendering Memory)) node.properties) handle : Task (Code Memory)).Formed := by
        intro source member
        obtain ⟨property, inside, isSource⟩ := List.mem_filterMap.1 member
        exact binding_of_classSource? isSource ▸ hosted property inside
      have renders : (Task.classes (List.filterMap (@classSource? (Host.rendering Memory)) node.properties) handle : Task (Code Memory)).Renders := trivial
      exact sets_effect tidy movable found setting keeps calm renders formed rfl trivial fun known => known
    · exact setting

end

section

variable (keeps : KeepsScenes calls) (tidy : Tidy scene machine) (movable : Movable scene machine id) (found : machine.nodes[id]? = some (.element node))

include keeps tidy movable found

theorem mounts_element (calm : Calm scene machine) (off : node.handle = none) {target : Handle} {anchor : Anchor} (hangs : Hangs scene machine id target anchor) :
    Ensures .any (mountElement calls id node target anchor) machine fun _ after => Mounted scene id machine after := by
  have isOff : (Node.element node).isOn = false := by
    rw [Node.isOn, off]
    rfl
  have opening := tidy.opening_off movable found isOff
  have station := movable.station tidy found
  have hosted : ∀ property ∈ node.properties, property.2.accessor.Hosted := tidy.upright.formed id _ found
  have distinct := distinct_kids tidy.arranged found
  have shut := (tidy.settled_at movable found).shut isOff
  have begun : Underway (scene.opening id) scene (· = id) machine machine := .refl opening
  obtain ⟨document, ran, undisturbed, grown, subscriptions, _⟩ := Document.undisturbed_create node.tag machine.document
  rw [mountElement, ensures_bind]
  refine ensures_edit_of_done ran ?_
  have foundCreated : ({ machine with document } : Stage Memory).nodes[id]? = some (.element node) := found
  rw [ensures_bind, ensures_modifyElement foundCreated]
  have setting : Setting scene id node machine.document.items.size target anchor machine
      (recording { machine with document } id (.element { node with handle := some machine.document.items.size })) := by
    have hangsCreated : Hangs (scene.opening id) ({ machine with document } : Stage Memory) id target anchor := hangs.congr rfl rfl fun _ _ _ guarded => guarded
    have edited := begun.edited undisturbed subscriptions
    refine ⟨station.rewrite edited foundCreated rfl hosted trivial distinct (fun _ member => .inl member)
      (fun isOpened => absurd (.inl isOpened) movable.rests) (.inl ⟨.inr rfl, rfl⟩) (fun _ => Iff.rfl) fun stead here => ?_, ⟨_, recording_self foundCreated⟩, fun child member on => ?_,
      station.hangs_recording edited foundCreated hangsCreated⟩
    · exact .create (fun _ same => by cases same) rfl (opening.placed stead here) here undisturbed grown hangs.opening off rfl (fun _ _ _ _ _ puts => by cases off.symm.trans puts.2.1)
        fun kid key guarded => movable.rests (.inr (scene.guards id kid key guarded))
    · exact shut child (Option.mem_toList.2 member) ((on_recording_of_ne (tidy.apart found (Option.mem_toList.2 member))).1 on)
  rw [ensures_bind]
  refine (setting.forM fun pair _ _ setting => setting.setProperty pair.1 pair.2).mono fun _ _ setting => ?_
  rw [ensures_bind]
  refine (sets_properties tidy movable found setting keeps calm).mono fun _ _ setting => ?_
  rw [ensures_bind]
  refine (setting.forM fun event _ _ setting => sets_listener tidy movable found setting event.1 event.2).mono fun _ settled setting => ?_
  obtain ⟨underway, ⟨disposables, foundSettled⟩, off, hangsSettled⟩ := setting
  rw [ensures_bind]
  refine (station.mounts_optional keeps underway machine.document.items.size calm.opening node.child .front foundSettled hangsSettled (fun kid member => ⟨member, rfl, rfl⟩)
    off).mono fun _ shown moves => ?_
  have foundShown := moves.record.trans foundSettled
  refine (moves.underway.places foundShown rfl (moves.frame.hung id target anchor (.inr (.inr rfl)) hangsSettled) keeps anchor).mono
    fun _ after placed => ?_
  obtain ⟨nodes, _, underway, stands⟩ := placed
  have foundAfter : after.nodes[id]? = some (.element { node with handle := some machine.document.items.size, disposables }) := nodes ▸ foundShown
  refine ⟨underway.close tidy movable foundAfter (.mounted rfl (fun kid member => ?_) trivial) fun stead here _ isHandle => ⟨target, ?_⟩, ⟨_, foundAfter, rfl⟩⟩
  · exact (on_congr nodes kid).2 ((moves.moved kid (Option.mem_toList.2 member)).2 trivial)
  · cases isHandle
    exact stands stead here

theorem unmounts_element {target : Handle} (hangs : ∃ anchor, Hangs scene machine id target anchor) :
    Ensures .any (unmountElement calls id node target) machine fun _ after => Unmounted scene id machine after := by
  have station := movable.station tidy found
  have hosted : ∀ property ∈ node.properties, property.2.accessor.Hosted := tidy.upright.formed id _ found
  have begun : Underway (scene.opening id) scene (· = id) machine machine := .refl (tidy.opening_unguided movable found trivial)
  obtain ⟨anchor, hangs⟩ := hangs
  unfold unmountElement
  split
  next off =>
    refine ⟨.refl tidy, (not_on_iff found).2 ?_⟩
    rw [Node.isOn, off]
    rfl
  next handle shown =>
    rw [ensures_bind]
    refine (station.unmounts_all keeps handle node.child.toList begun found hangs.opening fun kid member => ⟨.front, Option.mem_toList.1 member, shown, rfl⟩).mono
      fun _ hidden moves => ?_
    have foundHidden := moves.record.trans found
    have darkHidden (kid : NodeId) (member : kid ∈ kids hidden id) : Clear (scene.opening id) hidden kid ∧ ∀ other, Below hidden kid other → ¬ On hidden other := by
      have clear := station.clear (moves.underway.frame.ours member) moves.underway.frame.grows
      exact ⟨clear, moves.underway.tidy.dark clear (moves.moved kid ((mem_kids foundHidden).1 member)).1⟩
    rw [ensures_bind]
    refine (moves.underway.displaces foundHidden shown (moves.frame.hung id target anchor (.inr (.inr rfl)) hangs.opening) (.inr (.inr rfl)) darkHidden).mono
      fun _ away taken => ?_
    obtain ⟨nodesAway, _, displaced, gone⟩ := taken
    have foundAway : away.nodes[id]? = some (.element node) := nodesAway ▸ foundHidden
    have idle {machine : Stage Memory} (tidy : Tidy (scene.opening id) machine) (effect : Nat) (task : Task (Code Memory)) (drives : Drives machine.graph effect task) :
        task.subject? ≠ some id := fun isSubject => (tidy.driven.steers effect task drives).paused id isSubject (.inr rfl)
    rw [ensures_node?_bind foundAway]
    dsimp only
    rw [ensures_bind, ensures_setNode, ensures_bind]
    have same : blank (.element { node with disposables := [] }) = blank (.element node) := rfl
    refine (displaced.emptied keeps foundAway same hosted trivial rfl (.inr rfl) movable.rests rfl (fun _ _ _ => .inr rfl) rfl rfl
      (fun other task drives isSubject _ => absurd isSubject (idle displaced.tidy other task drives)) rfl).mono fun _ emptied disposed => ?_
    obtain ⟨underway, nodes, undisturbed, _⟩ := disposed
    have foundEmptied : emptied.nodes[id]? = some (.element { node with disposables := [] }) := by
      rw [nodes]
      exact recording_self foundAway
    rw [ensures_modifyElement foundEmptied]
    have off {kid : NodeId} (member : kid ∈ node.child.toList) : ¬ On emptied kid := by
      have apart : kid ≠ id := tidy.apart found member
      rw [On, nodes, recording_of_ne apart, nodesAway]
      exact (moves.moved kid member).1
    have distinct := distinct_kids underway.tidy.arranged foundEmptied
    have written : Underway (scene.opening id) scene (· = id) machine (recording emptied id (.element { node with disposables := [], handle := none })) :=
      station.rewrite underway foundEmptied rfl hosted trivial distinct (fun _ member => .inl member) (fun isOpened => absurd (.inl isOpened) movable.rests)
        (.inl ⟨.inr rfl, rfl⟩) (fun _ => Iff.rfl) fun stead here => .disown (fun _ same => by cases same) rfl (fun kid member => by
          have clear := station.clear (underway.frame.ours ((mem_kids foundEmptied).2 member)) underway.frame.grows
          exact ⟨clear, underway.tidy.dark clear (off member)⟩) rfl rfl (fun _ _ _ _ _ puts => by cases puts.2.1) fun other isHandle => by
            obtain rfl : handle = other := Option.some.inj (shown.symm.trans isHandle)
            obtain ⟨stands, retired⟩ := gone stead here
            exact ⟨undisturbed.parents ▸ stands, retired.undisturbed undisturbed⟩
    refine ⟨written.close tidy movable (recording_self foundEmptied) (.unmounted rfl (fun kid member on => ?_) rfl)
      (fun _ _ _ isHandle => by cases isHandle), fun on => ?_⟩
    · exact off member ((on_recording_of_ne (tidy.apart found member)).1 on)
    · cases (on_recording_self foundEmptied).1 on

end

end ReactiveMarkup.Rendering
