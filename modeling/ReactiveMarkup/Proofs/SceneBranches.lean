import ReactiveMarkup.Proofs.SceneElements

/-! Conditionals in a scene. From when it is mounted until it is unmounted, a conditional shows what it has selected, and its
effect waits unless the first true test selects the same. -/

namespace ReactiveMarkup.Rendering

open ReactiveMarkup.Step ReactiveMarkup.Graph ReactiveMarkup.Machine Tidy Stocked

variable {Memory : Type} {α β : Type} {about : NodeId → Prop} {scene inner : Scene} {start between machine after : Stage Memory} {id kid : NodeId}
  {effect : Nat} {task : Task (Code Memory)} {calls : Calls (Host.rendering Memory)} {node : ConditionalNode (Code Memory)} {old new : Node (Code Memory)}

theorem ensures_modifyConditional {breaks : Breaks} (found : machine.nodes[id]? = some (.conditional node))
    (f : ConditionalNode (Code Memory) → ConditionalNode (Code Memory)) (post : Unit → Stage Memory → Prop) :
    Ensures breaks (modifyConditional id f) machine post ↔ post () (recording machine id (.conditional (f node))) := by
  rw [modifyConditional, ensures_node?_bind found]
  exact Iff.rfl

theorem Frame.exists_conditional (frame : Frame scene about start machine) (busy : scene.Busy id)
    (found : start.nodes[id]? = some (.conditional node)) : ∃ later : ConditionalNode (Code Memory), machine.nodes[id]? = some (.conditional later) := by
  obtain ⟨later, foundLater, same⟩ := frame.exists_mold busy found
  cases later with
  | conditional later => exact ⟨later, foundLater⟩
  | _ => cases same

/-- The effect of a conditional is one that brings it up to date. -/
theorem Governs.of_conditional (governs : Governs scene machine effect task) (found : machine.nodes[id]? = some (.conditional node))
    (isSubject : task.subject? = some id) :
    (∃ target anchor, task = .branches id target anchor) ∧ node.mounted = true ∧ Presents machine node ∧ ∃ selection, Follows machine effect node selection := by
  cases task with
  | branches _ target anchor =>
    cases isSubject
    obtain ⟨_, again, mounted, presents, follows⟩ := governs
    cases found.symm.trans again
    exact ⟨⟨target, anchor, rfl⟩, mounted, presents, follows⟩
  | text =>
    cases isSubject
    obtain ⟨_, again, _⟩ := governs
    cases found.symm.trans again
  | items =>
    cases isSubject
    obtain ⟨_, again, _⟩ := governs
    cases found.symm.trans again
  | property | classes | host => cases isSubject

theorem below_recording (found : machine.nodes[id]? = some old) (same : new.kids = old.kids) : Below (recording machine id new) = Below machine := by
  have kids (parent : NodeId) : kids (recording machine id new) parent = kids machine parent := by
    by_cases here : parent = id
    · rw [here, kids_recording_self found, same, Rendering.kids, found, Option.elim_some]
    · exact kids_recording_of_ne here
  funext parent kid
  simp only [Below, kids]

/-- A conditional whose record keeps other effects is what it was. -/
theorem governs_rekept {disposables : List Disposable} (governs : Governs inner machine effect task) (found : machine.nodes[id]? = some (.conditional node))
    (isSubject : task.subject? = some id) : Governs scene (recording machine id (.conditional { node with disposables })) effect task := by
  obtain ⟨⟨target, anchor, rfl⟩, mounted, presents, selection, selected, active, current⟩ := governs.of_conditional found isSubject
  have same : (Node.conditional { node with disposables } : Node (Code Memory)).isOn = (Node.conditional node).isOn := rfl
  exact ⟨_, recording_self found, mounted, fun kid member => (on_recording found same kid).trans (presents kid member), selection, selected, active, current⟩

section

variable (keeps : KeepsScenes calls) (tidy : Tidy scene machine) (movable : Movable scene machine id) (found : machine.nodes[id]? = some (.conditional node))

include keeps tidy movable found

theorem mounts_conditional (calm : Calm scene machine) (off : node.mounted = false) {target : Handle} {anchor : Anchor} (hangs : Hangs scene machine id target anchor) :
    Ensures .any (mountConditional calls id target anchor) machine fun _ after => Mounted scene id machine after := by
  have formed : ∀ branch ∈ node.branches, ∃ query, branch.1 = .host (.query query) := tidy.upright.formed id _ found
  have distinct := distinct_kids tidy.arranged found
  have settled := tidy.settled_at movable found
  obtain ⟨selected, active, _⟩ : (Node.conditional node : Node (Code Memory)).Bare := settled.bare off
  have opening := tidy.opening_off movable found off
  rw [mountConditional, ensures_bind, ensures_modifyConditional found, ensures_bind]
  have fair : Fair machine.graph (.conditional { node with mounted := true }) := tidy.upright.fair id (.conditional node) found
  have marked : Underway (scene.opening id) scene (· = id) machine (recording machine id (.conditional { node with mounted := true })) :=
    (movable.station tidy found).rewrite (.refl opening) found rfl formed fair distinct (fun _ member => .inl member) (fun isOpened => absurd (.inl isOpened) movable.rests)
      (.inl ⟨.inr rfl, rfl⟩) (fun _ => Iff.rfl) fun stead here => .of_berth (opening.placed stead here) found rfl fun _ => .inr ⟨target, anchor, hangs.opening⟩
  have following := marked.resume tidy movable
  have hangsMarked : Hangs (scene.following id) (recording machine id (.conditional { node with mounted := true })) id target anchor := by
    have hangsHere : Hangs (scene.following id) machine id target anchor := hangs.congr rfl rfl fun _ _ _ guarded => guarded
    exact hangsHere.record found (.inl (.inr rfl)) (.inl fun _ _ _ _ _ puts => puts)
  have foundMarked : (recording machine id (.conditional { node with mounted := true })).nodes[id]? = _ := recording_self found
  have renders : (Task.branches id target anchor : Task (Code Memory)).Renders := trivial
  have primed : Primed (scene.following id) (recording machine id (.conditional { node with mounted := true })) (.branches id target anchor) := by
    refine ⟨_, foundMarked, rfl, fun kid member => ?_, .inl ⟨selected, active⟩, fun kid member other below => ?_⟩
    · rw [active]
      refine iff_of_false (fun on => ?_) (Option.not_mem_none kid)
      exact settled.shut off kid member ((on_recording_of_ne (tidy.apart found member)).1 on)
    · have same : (Node.conditional { node with mounted := true } : Node (Code Memory)).kids = (Node.conditional node).kids := rfl
      rw [below_recording found same] at below
      replace member : kid ∈ kids machine id := (mem_kids found).2 ((mem_kids foundMarked).1 member)
      rintro ((isOpened | rfl) | isStill)
      · exact movable.clear other (.head member below) (.inl isOpened)
      · exact tidy.upright.acyclic other kid member below
      · exact movable.clear other (.head member below) (.inr isStill)
  have lodged : Lodged (scene.following id) (recording machine id (.conditional { node with mounted := true })) (.branches id target anchor) := fun _ _ =>
    ⟨hangsMarked, fun subject handle isSubject _ rests => by
      cases isSubject
      exact absurd (.inl (.inr rfl)) rests⟩
  refine (mounts_effect keeps movable.rests calm following (fun effect task drives => tidy.idle_at movable found off effect task drives) renders trivial rfl primed lodged).mono
    fun effect between renewed => ?_
  obtain ⟨underway, frame, isNew, fresh, drives⟩ := renewed
  obtain ⟨later, foundBetween⟩ := frame.exists_conditional (.inl (.inr rfl)) foundMarked
  obtain ⟨_, mounted, _⟩ := (underway.tidy.driven.steers effect _ drives).governs.of_conditional foundBetween rfl
  rw [ensures_modifyConditional foundBetween]
  have adopted : Underway (scene.following id) scene (· = id) machine
      (recording between id (.conditional { later with disposables := later.disposables ++ [.effect effect] })) := by
    have formedBetween : Formed (.conditional later) := underway.tidy.upright.formed id _ foundBetween
    have fairBetween : Fair between.graph (.conditional later) := underway.tidy.upright.fair id _ foundBetween
    refine underway.adopt foundBetween rfl formedBetween fairBetween rfl (.inl (.inr rfl)) (fun isStill => movable.rests (.inr isStill))
      (fun isOpened => movable.rests (.inl isOpened)) (.inr rfl) (fun kid member isOpened => ?_) rfl fresh drives (fun _ same => (Option.some.inj same).symm) isNew
      (fun other task _ isSubject governs => governs_rekept governs foundBetween isSubject) rfl .inl
    exact underway.tidy.arranged.upward kid isOpened id ((mem_kids foundBetween).2 member)
  have foundAfter : (recording between id (.conditional { later with disposables := later.disposables ++ [.effect effect] })).nodes[id]? =
      some (.conditional { later with disposables := later.disposables ++ [.effect effect] }) := recording_self foundBetween
  have isKept := (keeps_iff foundAfter).2 (List.mem_append_right later.disposables (List.mem_singleton_self (Disposable.effect effect)))
  have on : On (recording between id (.conditional { later with disposables := later.disposables ++ [.effect effect] })) id := ⟨_, foundAfter, mounted⟩
  refine ⟨adopted.leave foundAfter (.mounted mounted trivial ⟨effect, target, anchor, isKept, drives⟩) (fun other task drivesOther isSubject => ?_)
    (fun _ _ _ isHandle => by cases isHandle), on⟩
  obtain rfl : effect = other := underway.tidy.driven.sole effect other _ task id drives drivesOther rfl isSubject
  exact ⟨isKept, on⟩

theorem unmounts_conditional {target : Handle} (hangs : ∃ anchor, Hangs scene machine id target anchor) :
    Ensures .any (unmountConditional calls id node target) machine fun _ after => Unmounted scene id machine after := by
  have formed : ∀ branch ∈ node.branches, ∃ query, branch.1 = .host (.query query) := tidy.upright.formed id _ found
  have fair : Fair machine.graph (.conditional node) := tidy.upright.fair id _ found
  have distinct := distinct_kids tidy.arranged found
  have settled := tidy.settled_at movable found
  have station := movable.station tidy found
  obtain ⟨anchor, hangs⟩ := hangs
  unfold unmountConditional
  split
  next isOff =>
    have off : node.mounted = false := by simpa using isOff
    exact ⟨.refl tidy, (not_on_iff found).2 off⟩
  next isOn =>
    have on : node.mounted = true := by simpa using isOn
    obtain ⟨driver, _, _, _, drives⟩ : Watched machine id (.conditional node) := settled.watched on
    obtain ⟨_, _, presents, _⟩ := (tidy.driven.steers driver _ drives).governs.of_conditional found rfl
    have begun : Underway (scene.following id) scene (· = id) machine machine := .refl (tidy.following_at movable found)
    rw [ensures_bind, ensures_modifyConditional found, ensures_bind]
    have same : blank (.conditional { node with disposables := [] }) = blank (.conditional node) := rfl
    refine (begun.emptied keeps found same formed fair rfl (.inr rfl) movable.rests rfl (fun kid member isOpened => ?_) rfl rfl
      (fun other task _ isSubject governs => governs_rekept governs found isSubject) rfl).mono fun _ emptied ⟨underway, nodes, _, dropped⟩ => ?_
    · exact begun.tidy.arranged.upward kid isOpened id ((mem_kids found).2 member)
    have foundEmptied : emptied.nodes[id]? = some (.conditional { node with disposables := [] }) := by
      rw [nodes]
      exact recording_self found
    have halted := underway.halt fun effect task drives isSubject => by
      obtain ⟨old, apart⟩ := dropped effect task drives
      exact apart ((keeps_iff found).1 (tidy.keeps_of_drives movable old isSubject))
    rw [ensures_node?_bind foundEmptied]
    dsimp only
    rw [ensures_bind, ensures_modifyConditional foundEmptied, ensures_bind]
    have fairHidden : Fair emptied.graph (.conditional { node with disposables := [], active := none }) := by
      obtain ⟨shown, selected, _⟩ := underway.tidy.upright.fair id _ foundEmptied
      exact ⟨shown, selected, .inl rfl⟩
    have hidden : Underway (scene.opening id) scene (· = id) machine (recording emptied id (.conditional { node with disposables := [], active := none })) :=
      station.rewrite halted foundEmptied rfl formed fairHidden distinct (fun _ member => .inl member) (fun isOpened => absurd (.inl isOpened) movable.rests) (.inr rfl)
        (fun _ => Iff.rfl) fun stead here => .of_berth (halted.tidy.placed stead here) foundEmptied rfl .inl
    have hangsHidden : Hangs (scene.opening id) (recording emptied id (.conditional { node with disposables := [], active := none })) id target anchor := by
      have bared : Hangs (scene.opening id) (recording machine id (.conditional { node with disposables := [] })) id target anchor :=
        hangs.opening.record found (.inr (.inr rfl)) (.inl fun _ _ _ _ _ puts => puts)
      exact (bared.congr nodes rfl fun _ _ _ guarded => guarded).record foundEmptied (.inr (.inr rfl)) (.inl fun _ _ _ _ _ puts => puts)
    have foundHidden : (recording emptied id (.conditional { node with disposables := [], active := none })).nodes[id]? = _ := recording_self foundEmptied
    refine (station.unmounts_all keeps target node.active.toList hidden foundHidden hangsHidden fun kid member =>
      ⟨anchor, show kid ∈ (Node.conditional node).kids from mem_kids_of_active fair (Option.mem_toList.1 member), rfl, rfl⟩).mono fun _ last moves => ?_
    have foundLast := moves.record.trans foundHidden
    rw [ensures_modifyConditional foundLast]
    have fairLast : Fair last.graph (.conditional { node with disposables := [], active := none, selected := none, mounted := false }) := ⟨.otherwise, .inl rfl, .inl rfl⟩
    have written : Underway (scene.opening id) scene (· = id) machine
        (recording last id (.conditional { node with disposables := [], active := none, selected := none, mounted := false })) :=
      station.rewrite moves.underway foundLast rfl formed fairLast distinct (fun _ member => .inl member) (fun isOpened => absurd (.inl isOpened) movable.rests)
        (.inl ⟨.inr rfl, rfl⟩) (fun _ => Iff.rfl) fun stead here => .of_berth (moves.underway.tidy.placed stead here) foundLast rfl nofun
    refine ⟨written.close tidy movable (recording_self foundLast) (.unmounted rfl (fun kid member on => ?_) ⟨rfl, rfl, rfl⟩) nofun, fun on => ?_⟩
    · have apart : kid ≠ id := tidy.apart found member
      replace on := (on_recording_of_ne apart).1 on
      by_cases shown : kid ∈ node.active.toList
      · exact (moves.moved kid shown).1 on
      · replace on := (on_recording_of_ne apart).1 ((moves.others kid ((mem_kids foundHidden).2 member) shown).1 on)
        rw [On, nodes, recording_of_ne apart] at on
        exact shown (Option.mem_toList.2 ((presents kid member).1 on))
    · cases (on_recording_self foundLast).1 on

end

/-! A pass of a conditional. -/

/-- What the tests of a conditional say to the effect that looks at them: it comes to read all that they have read. -/
theorem minds_select (keeps : KeepsScenes calls) (observed : machine.graph.observer = some effect) (tidy : Tidy scene machine)
    {branches : List (Accessor (Code Memory) × Option NodeId)} (queries : ∀ branch ∈ branches, ∃ query, branch.1 = .host (.query query)) (index : Nat) :
    Ensures .any (select calls index branches) machine fun selection after => Strays scene machine after ∧ machine.graph.Refreshed after.graph ∧
      FirstTrue (Minded after.graph effect) index (branches.map Prod.fst) selection := by
  induction branches generalizing machine index with
  | nil => exact ⟨.refl tidy, .refl _, .otherwise index⟩
  | cons branch rest ih =>
    obtain ⟨test, shown⟩ := branch
    obtain ⟨query, rfl⟩ := queries _ List.mem_cons_self
    have upright := tidy.upright
    rw [select, ensures_bind]
    refine (keeps.trees.answers (.query query) query machine rfl ⟨upright.coherent, upright.graph_observing, .inl trivial⟩).mono fun value between evaluated => ?_
    have strays : Strays scene machine between := .of_aside tidy (.of_evaluated upright evaluated) fun _ empty => evaluated.refreshed.queue.trans empty
    have observedLater : between.graph.observer = some effect := evaluated.refreshed.observer.trans observed
    have given : Minded between.graph effect (.host (.query query)) value :=
      ⟨query, rfl, evaluated.reads.mono (fun cell seen => seen effect observed) fun _ _ _ holds => holds⟩
    split
    next holds => exact ⟨strays, evaluated.refreshed, .here given holds⟩
    next fails =>
      refine (ih observedLater strays.tidy (fun branch inRest => queries branch (List.mem_cons_of_mem _ inRest)) (index + 1)).mono fun selection after selected => ?_
      obtain ⟨later, refreshed, first⟩ := selected
      refine ⟨strays.trans later, evaluated.refreshed.trans refreshed, .later ?_ (by simpa using fails) first⟩
      obtain ⟨_, same, reads⟩ := given
      exact ⟨_, same, reads.mono (fun _ member => refreshed.observed effect observedLater member) fun _ _ _ holds => refreshed.current? holds⟩

/-- The branch that a conditional shows is replaced by another: it is unmounted until no branch is mounted any more, nor
anything below one, and only then the other is mounted. -/
structure Replaced (calls : Calls (Host.rendering Memory)) (node : ConditionalNode (Code Memory)) (selection : Selection) (target : Handle) (anchor : Anchor)
    (before hidden after : Stage Memory) : Prop where
  unmounts : (node.active.toList.forM fun previous => calls.unmount previous target).run before = (.done (), hidden)
  clear : ∀ kid ∈ (Node.conditional node).kids, ∀ other, Below hidden kid other → ¬ On hidden other
  mounts : ((choice node selection).toList.forM fun next => calls.mount next target anchor).run hidden = (.done (), after)

/-- What a conditional that goes over to another branch leaves behind. -/
structure Switched (scene : Scene) (id : NodeId) (effect : Nat) (node : ConditionalNode (Code Memory)) (selection : Selection) (task : Task (Code Memory))
    (target : Handle) (anchor : Anchor) (before after : Stage Memory) : Prop where
  underway : Underway (scene.during task) scene (fun other => task.subject? = some other ∧ ¬ On before other) before after
  hangs : Hangs (scene.during task) after id target anchor
  record : after.nodes[id]? = some (.conditional (showing node selection))
  presents : Presents after (showing node selection)
  live : after.graph.IsLive effect

/-- The effect under way is needed while what is right below its node is moved. -/
theorem Assigned.needed (assigned : Assigned scene machine effect task) (isSubject : task.subject? = some id) : Needed (scene.during task) machine effect := by
  obtain ⟨isPending, _⟩ | ⟨keeper, isKept, subjects⟩ := assigned
  · exact .inl isPending
  · exact .inr ⟨keeper, .inr (.inr (isSubject.trans (congrArg some (subjects id isSubject)))), isKept⟩

theorem switched_goOver (keeps : KeepsScenes calls) (tidy : Tidy (scene.during task) machine) (isSubject : task.subject? = some id) (paused : ¬ scene.still id)
    (inBatch : 0 < machine.graph.depth) (live : machine.graph.IsLive effect) (assigned : Assigned scene machine effect task) (alone : Alone scene machine id)
    (found : machine.nodes[id]? = some (.conditional node)) (presents : Presents machine node) (selection : Selection) {target : Handle} {anchor : Anchor}
    (hangs : Hangs (scene.during task) machine id target anchor) :
    Ensures .any (goOver calls id node selection target anchor) machine fun _ after => Switched scene id effect node selection task target anchor machine after ∧ ∃ hidden shown,
      Replaced calls node selection target anchor (recording machine id (.conditional (leaving node selection))) hidden shown ∧
        after = recording shown id (.conditional (showing node selection)) := by
  have formed : ∀ branch ∈ node.branches, ∃ query, branch.1 = .host (.query query) := tidy.upright.formed id _ found
  have fair : Fair machine.graph (.conditional node) := tidy.upright.fair id _ found
  have distinct := distinct_kids tidy.arranged found
  have station := alone.station tidy isSubject paused
  have begun : Underway (scene.during task) scene (fun other => task.subject? = some other ∧ ¬ On machine other) machine machine := .refl tidy
  have fairLeaving : Fair machine.graph (.conditional (leaving node selection)) := ⟨selection, .inr rfl, .inl rfl⟩
  have left : Underway (scene.during task) scene (fun other => task.subject? = some other ∧ ¬ On machine other) machine
      (recording machine id (.conditional (leaving node selection))) :=
    station.rewrite begun found rfl formed fairLeaving distinct (fun _ member => .inl member) (fun _ => rfl) (.inr rfl) (fun _ => Iff.rfl) fun stead here =>
      .of_berth (tidy.placed stead here) found rfl .inl
  have foundLeft : (recording machine id (.conditional (leaving node selection))).nodes[id]? = _ := recording_self found
  have isKid {kid : NodeId} (member : kid ∈ (Node.conditional node).kids) : kid ∈ kids (recording machine id (.conditional (leaving node selection))) id :=
    (mem_kids foundLeft).2 member
  have needed : Needed (scene.during task) (recording machine id (.conditional (leaving node selection))) effect := by
    refine (assigned.needed isSubject).imp_right fun kept => ?_
    obtain ⟨keeper, busy, isKept⟩ := kept
    have same : (Node.conditional (leaving node selection) : Node (Code Memory)).disposables = (Node.conditional node).disposables := rfl
    exact ⟨keeper, busy, (keeps_recording found same keeper _).2 isKept⟩
  rw [goOver, ensures_bind, ensures_setNode, replaceBranch, LawfulMonad.bind_assoc, ensures_bind]
  have hangsLeft : Hangs (scene.during task) (recording machine id (.conditional (leaving node selection))) id target anchor := station.hangs_recording begun found hangs
  refine (ensures_ran (station.unmounts_all keeps target node.active.toList left foundLeft hangsLeft fun kid member =>
    ⟨anchor, show kid ∈ (Node.conditional node).kids from mem_kids_of_active fair (Option.mem_toList.1 member), rfl, rfl⟩)).mono fun _ hidden moved => ?_
  obtain ⟨unmounts, hides⟩ := moved
  have hangsHidden := hides.frame.hung id target anchor (.inr station.waits) hangsLeft
  have foundHidden := hides.record.trans foundLeft
  have allOff (kid : NodeId) (member : kid ∈ (Node.conditional node).kids) : ¬ On hidden kid := by
    intro on
    by_cases shown : kid ∈ node.active.toList
    · exact (hides.moved kid shown).1 on
    · have on := (on_recording_of_ne (tidy.apart found member)).1 ((hides.others kid (isKid member) shown).1 on)
      exact shown (Option.mem_toList.2 ((presents kid member).1 on))
  have clear (kid : NodeId) (member : kid ∈ (Node.conditional node).kids) (other : NodeId) (below : Below hidden kid other) : ¬ On hidden other := by
    have isOld : kid ∈ kids machine id := (mem_kids found).2 member
    have movable := station.movable (.inl isOld) hides.underway.frame.grows (hides.underway.tidy.only ((mem_kids foundHidden).2 member))
    exact hides.underway.tidy.dark movable.clear (allOff kid member) other below
  rw [ensures_bind]
  refine (ensures_ran (station.mounts_optional keeps hides.underway target (calm_of_inBatch inBatch) (choice node selection) anchor foundHidden hangsHidden (fun kid chosen => ?_)
    fun kid chosen => ?_)).mono fun _ shown moved => ?_
  · exact ⟨mem_kids_of_choice chosen, rfl, rfl⟩
  · exact allOff kid (mem_kids_of_choice chosen)
  obtain ⟨mounts, shows⟩ := moved
  have foundShown := shows.record.trans foundHidden
  rw [ensures_modifyConditional foundShown]
  have fairShowing : Fair shown.graph (.conditional (showing node selection)) := ⟨selection, .inr rfl, .inr rfl⟩
  have written : Underway (scene.during task) scene (fun other => task.subject? = some other ∧ ¬ On machine other) machine
      (recording shown id (.conditional (showing node selection))) :=
    station.rewrite shows.underway foundShown rfl formed fairShowing distinct (fun _ member => .inl member) (fun _ => rfl) (.inr rfl) (fun _ => Iff.rfl) fun stead here =>
      .of_berth (shows.underway.tidy.placed stead here) foundShown rfl .inl
  have hangsShown : Hangs (scene.during task) (recording shown id (.conditional (showing node selection))) id target anchor :=
    station.hangs_recording shows.underway foundShown (shows.frame.hung id target anchor (.inr station.waits) hangsHidden)
  refine ⟨⟨written, hangsShown, recording_self foundShown, fun kid member => ?_, ?_⟩, hidden, shown, ⟨unmounts, clear, mounts⟩, rfl⟩
  · have same : (Node.conditional (showing node selection) : Node (Code Memory)).isOn = (Node.conditional (leaving node selection)).isOn := rfl
    refine (on_recording foundShown same kid).trans ?_
    by_cases chosen : choice node selection = some kid
    · exact iff_of_true ((shows.moved kid (Option.mem_toList.2 chosen)).2 trivial) chosen
    · refine iff_of_false (fun on => allOff kid member ?_) chosen
      exact (shows.others kid ((mem_kids foundHidden).2 member) fun isChosen => chosen (Option.mem_toList.1 isChosen)).1 on
  · exact shows.frame.spared effect (hides.frame.needed needed) (hides.frame.spared effect needed live)

/-- A node keeps the effect that brings it up to date if any node does. -/
theorem Assigned.keeper (assigned : Assigned scene machine effect task) (tidy : Tidy (scene.during task) machine) (isSubject : task.subject? = some id)
    {keeper : NodeId} (isKept : Keeps machine keeper (.effect effect)) : keeper = id := by
  obtain ⟨isPending, _⟩ | ⟨other, again, subjects⟩ := assigned
  · exact absurd isKept (tidy.stocked.loose effect isPending keeper)
  · exact (tidy.stocked.apart keeper other effect isKept again).trans (subjects id isSubject).symm

/-- The branches whose tests are asked if one of them is selected, and others behind them. -/
def askedBefore (branches others : List (Accessor (Code Memory) × Option NodeId)) : Selection → List (Accessor (Code Memory) × Option NodeId)
  | .branch index => branches.take (index + 1) ++ others
  | .otherwise => branches

/-- What stands behind the first test that gives a true value is not looked at. -/
theorem run_select_asked {branches : List (Accessor (Code Memory) × Option NodeId)} {start index : Nat}
    (ran : (select calls start branches).run machine = (.done (.branch index), after)) (others : List (Accessor (Code Memory) × Option NodeId)) :
    start ≤ index ∧ (select calls start (branches.take (index + 1 - start) ++ others)).run machine = (.done (.branch index), after) := by
  induction branches generalizing start machine with
  | nil => cases ran
  | cons branch rest ih =>
    obtain ⟨test, shown⟩ := branch
    rw [select] at ran
    obtain ⟨value, between, asked, goes⟩ := exists_of_run_bind ran
    by_cases holds : value.isTruthy = true
    · rw [if_pos holds] at goes
      cases goes
      refine ⟨Nat.le_refl _, ?_⟩
      rw [Nat.add_sub_cancel_left, List.take_succ_cons, List.cons_append, select, run_bind_of_done asked, if_pos holds]
      rfl
    · rw [if_neg holds] at goes
      obtain ⟨beyond, same⟩ := ih goes
      refine ⟨Nat.le_of_succ_le beyond, ?_⟩
      rw [show index + 1 - start = index + 1 - (start + 1) + 1 by omega, List.take_succ_cons, List.cons_append, select, run_bind_of_done asked, if_neg holds]
      exact same

theorem run_select_askedBefore {branches : List (Accessor (Code Memory) × Option NodeId)} {selection : Selection}
    (ran : (select calls 0 branches).run machine = (.done selection, after)) (others : List (Accessor (Code Memory) × Option NodeId)) :
    (select calls 0 (askedBefore branches others selection)).run machine = (.done selection, after) := by
  cases selection with
  | branch index => exact (run_select_asked ran others).2
  | otherwise => exact ran

/-- A pass of a conditional: the tests are asked one after the other, and the first that gives a true value selects a branch. If it
is not the one that is selected already, it replaces the one that is shown. -/
structure Pass (calls : Calls (Host.rendering Memory)) (id : NodeId) (target : Handle) (anchor : Anchor) (node : ConditionalNode (Code Memory))
    (selection : Selection) (before looked after : Stage Memory) : Prop where
  first : FirstTrue (Tells before.graph) 0 (node.branches.map Prod.fst) selection
  /-- Whatever stands behind that test makes no difference: it is not asked. -/
  asks : ∀ others, (select calls 0 (askedBefore node.branches others selection)).run before = (.done selection, looked)
  /-- Asking is no operation on the document. -/
  still : looked.document = before.document ∧ looked.nodes = before.nodes
  stays : node.selected = some selection → after = looked
  switches : node.selected ≠ some selection → ∃ hidden shown,
    Replaced calls node selection target anchor (recording { looked with graph := { looked.graph with observer := none } } id (.conditional (leaving node selection))) hidden shown ∧
      after = { recording shown id (.conditional (showing node selection)) with graph := { shown.graph with observer := looked.graph.observer } }

theorem Lodged.hangs {target : Handle} {anchor : Anchor} (lodged : Lodged scene machine (.branches id target anchor)) : Hangs scene machine id target anchor := by
  cases here : scene.stead with
  | none => exact .adrift here
  | some stead => exact (lodged stead here).1

/-- The body of an effect of a conditional shows the branch of the first true test. -/
theorem performs_branches (keeps : KeepsScenes calls) (inBatch : 0 < machine.graph.depth) (observed : machine.graph.observer = some effect)
    (live : machine.graph.IsLive effect) {target : Handle} {anchor : Anchor} (assigned : Assigned scene machine effect (.branches id target anchor))
    (paused : ¬ scene.still id) (tidy : Tidy (scene.during (Task.branches id target anchor : Task (Code Memory))) machine) (primed : Primed scene machine (.branches id target anchor))
    (lodged : Lodged scene machine (.branches id target anchor)) :
    Ensures .any (refreshBranches calls id target anchor) machine fun _ after => Performed scene effect (.branches id target anchor) machine after ∧
      ∃ node selection looked, machine.nodes[id]? = some (.conditional node) ∧ Pass calls id target anchor node selection machine looked after := by
  obtain ⟨node, found, mounted, presents, showing, alone⟩ := primed
  have queries : ∀ branch ∈ node.branches, ∃ query, branch.1 = .host (.query query) := tidy.upright.formed id _ found
  have isSubject : (Task.branches id target anchor : Task (Code Memory)).subject? = some id := rfl
  rw [refreshBranches, ensures_node?_bind found]
  dsimp only
  rw [ensures_bind]
  refine (ensures_ran (minds_select keeps observed tidy queries 0)).mono fun selection between selected => ?_
  obtain ⟨asks, strays, _, first⟩ := selected
  obtain ⟨looked, tells⟩ := (ensures_select keeps.trees tidy.upright queries 0).of_done asks
  have still : between.document = machine.document ∧ between.nodes = machine.nodes := by
    rw [looked.frame]
    exact ⟨rfl, rfl⟩
  have aside := strays.aside inBatch
  have foundBetween : between.nodes[id]? = some (.conditional node) := aside.nodes ▸ found
  have presentsBetween : Presents between node := (presents_congr aside.nodes node).2 presents
  rw [ensures_node?_bind foundBetween]
  dsimp only
  split
  next same =>
    refine ⟨.of_strays assigned tidy inBatch live lodged strays ⟨node, foundBetween, mounted, presentsBetween, selection, same, ?_, .inr first⟩,
      node, selection, between, found, tells, run_select_askedBefore asks, still, fun _ => rfl, fun anew => absurd same anew⟩
    obtain ⟨nothing, _⟩ | ⟨chosen, isChosen, active⟩ := showing
    · cases same.symm.trans nothing
    · cases same.symm.trans isChosen
      exact active
  next anew =>
    have liveBetween := tidy.live_aside aside assigned.stock live
    have assignedBetween : Assigned scene { between with graph := { between.graph with observer := none } } effect (.branches id target anchor) :=
      assigned.imp_right (.imp fun keeper kept => kept.imp_left (keeps_congr aside.nodes keeper _).2)
    have aloneBetween : Alone scene { between with graph := { between.graph with observer := none } } id := alone.carry aside.nodes
    have inBatchBetween : 0 < between.graph.depth := strays.depth ▸ inBatch
    have hangs : Hangs (scene.during (Task.branches id target anchor : Task (Code Memory))) { between with graph := { between.graph with observer := none } } id target anchor :=
      lodged.hangs.congr aside.nodes rfl fun _ _ _ guarded => guarded
    unfold Ensures
    rw [run_goOver foundBetween]
    show Ensures .any (untrack (goOver calls id node selection target anchor)) between _
    rw [untrack, ensures_observedBy]
    refine (switched_goOver keeps strays.tidy.unobserved isSubject paused inBatchBetween liveBetween assignedBetween aloneBetween foundBetween presentsBetween
      selection hangs).mono fun _ after gone => ?_
    obtain ⟨switched, hidden, shown, replaced, ends⟩ := gone
    have going : Underway (scene.during (Task.branches id target anchor : Task (Code Memory))) scene
        (fun other => (Task.branches id target anchor : Task (Code Memory)).subject? = some other ∧ ¬ On between other) between
        { after with graph := { after.graph with observer := between.graph.observer } } := switched.underway.unobserved strays.tidy.upright
    have sofar : Underway (scene.during (Task.branches id target anchor : Task (Code Memory))) scene
        (fun other => (Task.branches id target anchor : Task (Code Memory)).subject? = some other ∧ ¬ On machine other) machine between :=
      (Underway.refl tidy).within (alone.station tidy isSubject paused) strays.toUnderway fun _ never => never.elim
    have whole := sofar.trans going fun other moved _ => .inl (moved.imp_right fun off on => off ((on_congr aside.nodes other).2 on))
    refine ⟨⟨whole.tidy, whole.frame, whole.attends inBatch, switched.live, fun keeper isKept => ?_,
      ⟨_, switched.record, mounted, switched.presents, selection, rfl, rfl, current_of_attends (going.attends inBatchBetween) (fun never => never) switched.live ?_ (.inr first)⟩, fun stead here => ⟨?_, ?_⟩⟩,
      node, selection, between, found, tells, run_select_askedBefore asks, still, fun same => absurd same anew, fun _ => ⟨hidden, shown, replaced, ?_⟩⟩
    · obtain rfl := assigned.keeper tidy isSubject isKept
      exact (keeps_iff switched.record).2 ((keeps_iff found).1 isKept)
    · obtain ⟨record, isRecord, _⟩ := liveBetween
      exact between.graph.lt_size_of_content? isRecord
    · exact switched.hangs.congr rfl rfl fun _ _ _ guarded => guarded
    · rintro subject handle ⟨⟩ owns
      cases (owns_iff switched.record).1 owns
    · rw [ends]

end ReactiveMarkup.Rendering
