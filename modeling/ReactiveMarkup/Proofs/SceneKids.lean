import ReactiveMarkup.Proofs.SceneQueues

/-! Nodes that are being mounted, unmounted or brought up to date in a scene: their records change, what is right below
them is moved, and in the end they rest again. -/

namespace ReactiveMarkup.Rendering

open ReactiveMarkup.Step ReactiveMarkup.Graph ReactiveMarkup.Machine Tidy Stocked

variable {Memory : Type} {α : Type} {about more : NodeId → Prop} {scene inner later : Scene} {start before machine after : Stage Memory} {id kid : NodeId}
  {effect : Nat} {task : Task (Code Memory)} {calls : Calls (Host.rendering Memory)} {old new : Node (Code Memory)}

/-! Beginning. -/

/-- Nothing drives a node that is not mounted. -/
theorem Tidy.undriven_of_off (tidy : Tidy scene machine) (off : ¬ On machine id) (rests : ¬ scene.opened id) (drives : Drives machine.graph effect task) :
    task.subject? ≠ some id := by
  intro isSubject
  have governs := (tidy.driven.steers effect task drives).governs
  cases task with
  | branches =>
    cases isSubject
    obtain ⟨node, found, mounted, _⟩ := governs
    exact off ⟨_, found, mounted⟩
  | items =>
    cases isSubject
    obtain ⟨list, found, mounted | isOpened, _⟩ := governs
    · exact off ⟨_, found, mounted⟩
    · exact rests isOpened
  | text =>
    cases isSubject
    obtain ⟨node, found, shown⟩ := governs
    exact off ⟨_, found, shown⟩
  | property | classes | host => cases isSubject

/-- A node of a kind that follows no cells. -/
def Unguided : Node (Code Memory) → Prop
  | .element _ | .fragment _ | .component _ => True
  | .text _ | .conditional _ | .list _ => False

theorem Tidy.undriven_of_unguided (tidy : Tidy scene machine) (found : machine.nodes[id]? = some old) (unguided : Unguided old)
    (drives : Drives machine.graph effect task) : task.subject? ≠ some id := by
  intro isSubject
  have governs := (tidy.driven.steers effect task drives).governs
  cases task with
  | branches =>
    cases isSubject
    obtain ⟨_, again, _⟩ := governs
    cases again.symm.trans found
    exact unguided
  | items =>
    cases isSubject
    obtain ⟨_, again, _⟩ := governs
    cases again.symm.trans found
    exact unguided
  | text =>
    cases isSubject
    obtain ⟨_, again, _⟩ := governs
    cases again.symm.trans found
    exact unguided
  | property | classes | host => cases isSubject

theorem Tidy.opening (tidy : Tidy scene machine) (movable : Movable scene machine id) (inside : id < machine.nodes.size)
    (idle : ∀ effect task, Drives machine.graph effect task → task.subject? ≠ some id) : Tidy (scene.opening id) machine := by
  refine (tidy.following inside movable.waiting).pausing ?_ fun effect task subject drives isSubject here => ?_
  · rintro _ rfl
    exact inside
  · exact idle effect task drives (here ▸ isSubject)

theorem Calm.opening (calm : Calm scene machine) : Calm (scene.opening id) machine := fun closed other => Or.imp_left (calm closed other)

theorem Calm.following (calm : Calm scene machine) : Calm (scene.following id) machine := fun closed other isStill => .inl (calm closed other isStill)

/-- A scene in which what is right below a node may be moved: the node waits for it, and everything below rests. -/
structure Station (scene inner : Scene) (id : NodeId) (start : Stage Memory) : Prop where
  opened : ∀ other, scene.opened other → inner.opened other
  still : ∀ other, scene.still other → inner.still other
  pending : inner.pending = scene.pending
  rests : ¬ scene.still id
  waits : inner.still id
  within : ∀ other, inner.Busy other → other < start.nodes.size
  alone : Alone inner start id
  stead : inner.stead = scene.stead
  wards : ∀ holder kid key, scene.wards holder kid key → inner.wards holder kid key
  /-- What is under way around does not belong below what is moved. -/
  back : ∀ machine, Grows start machine → ∀ other target anchor, scene.Busy other → Hangs inner machine other target anchor → Hangs scene machine other target anchor

theorem Movable.rests (movable : Movable scene machine id) : ¬ scene.Busy id := movable.clear id .refl

theorem inside_of_found (found : machine.nodes[id]? = some old) : id < machine.nodes.size := (Array.getElem?_eq_some_iff.1 found).1

theorem Movable.station (movable : Movable scene start id) (tidy : Tidy scene start) (found : start.nodes[id]? = some old) : Station scene (scene.opening id) id start := by
  refine ⟨fun _ => .inl, fun _ => .inl, rfl, fun isStill => movable.rests (.inr isStill), .inr rfl, ?_, fun kid member other below => ?_, rfl, fun _ _ _ guarded => guarded,
    fun _ _ _ _ _ _ hangs => hangs.congr rfl rfl fun _ _ _ guarded => guarded⟩
  · rintro other ((isOpened | rfl) | isStill | rfl)
    · exact tidy.arranged.inside other (.inl isOpened)
    · exact inside_of_found found
    · exact tidy.arranged.inside other (.inr isStill)
    · exact inside_of_found found
  rintro ((isOpened | rfl) | isStill | rfl)
  · exact movable.clear other (.head member below) (.inl isOpened)
  · exact tidy.upright.acyclic other kid member below
  · exact movable.clear other (.head member below) (.inr isStill)
  · exact tidy.upright.acyclic other kid member below

theorem Alone.station (alone : Alone scene start id) (tidy : Tidy (scene.during task) start) (isSubject : task.subject? = some id) (paused : ¬ scene.still id) :
    Station scene (scene.during task) id start := by
  refine ⟨fun _ isOpened => isOpened, fun _ => .inl, rfl, paused, .inr isSubject, tidy.arranged.inside, fun kid member other below => ?_, rfl, fun _ _ _ guarded => guarded,
    fun _ _ _ _ _ _ hangs => hangs.congr rfl rfl fun _ _ _ guarded => guarded⟩
  rintro (isOpened | isStill | here)
  · exact alone kid member other below (.inl isOpened)
  · exact alone kid member other below (.inr isStill)
  · cases isSubject.symm.trans here
    exact tidy.upright.acyclic id kid member below

/-! Moving what is right below. -/

/-- What was below a node when the step began, or did not exist then. -/
def Ours (start : Stage Memory) (id kid : NodeId) : Prop := kid ∈ kids start id ∨ start.nodes.size ≤ kid

section

variable (station : Station scene inner id start) (ours : Ours start id kid)

include station ours

theorem Station.clear (grows : Grows start machine) : Clear inner machine kid := by
  intro other below busy
  have inside := station.within other busy
  obtain member | new := ours
  · exact station.alone kid member other (grows.below_of_old below inside) busy
  · exact absurd inside (Nat.not_lt.2 (grows.new_of_below new below))

theorem Station.movable (grows : Grows start machine) (only : ∀ parent, kid ∈ kids machine parent → parent = id) : Movable inner machine kid :=
  ⟨station.clear ours grows, fun parent member => only parent member ▸ station.waits⟩

theorem Station.named (other : NodeId) (here : other = kid) (inside : other < start.nodes.size) :
    about other ∨ ∃ parent, other ∈ kids start parent ∧ ¬ scene.still parent := by
  subst here
  exact .inr ⟨id, ours.resolve_right (Nat.not_le.2 inside), station.rests⟩

omit ours in
/-- A step goes on with one that leaves the node alone. -/
theorem Underway.within (first : Underway inner scene about start machine) (second : Underway later inner more machine after)
    (named : ∀ other, more other → other < start.nodes.size → about other ∨ ∃ parent, other ∈ kids start parent ∧ ¬ scene.still parent) :
    Underway later scene about start after := by
  refine first.join second station.opened station.still (fun disposable isPending => ?_) named (fun effect isPending => .inl ?_) station.stead station.wards
    (station.back after (first.frame.grows.trans second.frame.grows))
  · rw [station.pending]
    exact isPending
  · rw [station.pending] at isPending
    exact isPending

variable (keeps : KeepsScenes calls) (underway : Underway inner scene about start machine) (only : ∀ parent, kid ∈ kids machine parent → parent = id)
  (target : Handle)

include keeps underway only

theorem Station.mount (calm : Calm inner start) (inside : kid < machine.nodes.size) (off : ¬ On machine kid) {anchor : Anchor} (hangs : Hangs inner machine kid target anchor) :
    Ensures .any (calls.mount kid target anchor) machine fun _ after =>
      Underway inner scene about start after ∧ Yields inner (· = kid) machine after ∧ On after kid := by
  have movable := station.movable ours underway.frame.grows only
  refine (keeps.mount kid target anchor underway.tidy (calm.carry underway.depth) movable inside off hangs).mono fun _ after ⟨yields, on⟩ => ⟨?_, yields, on⟩
  exact underway.within station yields (station.named ours)

theorem Station.unmount (hangs : ∃ anchor, Hangs inner machine kid target anchor) : Ensures .any (calls.unmount kid target) machine fun _ after =>
    Underway inner scene about start after ∧ Yields inner (· = kid) machine after ∧ ¬ On after kid := by
  have movable := station.movable ours underway.frame.grows only
  refine (keeps.unmount kid target underway.tidy movable hangs).mono fun _ after ⟨yields, off⟩ => ⟨?_, yields, off⟩
  exact underway.within station yields (station.named ours)

end

/-- Nodes that are moved may be on their way. -/
theorem Station.guarding {nodes : NodeId → Option String → Prop} (station : Station scene inner id start) (ours : ∀ kid key, nodes kid key → Ours start id kid) :
    Station scene (inner.guarding station.waits nodes) id start := by
  refine ⟨station.opened, station.still, station.pending, station.rests, station.waits, station.within, station.alone, station.stead,
    fun holder kid key guarded => .inl (station.wards holder kid key guarded), fun machine grows other target anchor busy hangs => ?_⟩
  refine station.back machine grows other target anchor busy (hangs.unguard fun kid key isNew => .inr ?_)
  have clear := station.clear (ours kid key isNew) grows
  exact ⟨clear, fun below => clear other below (busy.imp (station.opened other) (station.still other))⟩

/-- What is right below a node is so only there. -/
theorem Tidy.only (tidy : Tidy scene machine) (member : kid ∈ kids machine id) (parent : NodeId) (other : kid ∈ kids machine parent) : parent = id :=
  tidy.arranged.unique parent id kid other member

/-- What is right below a node that waits is mounted as before, unless the step is about it. -/
theorem Frame.on_kid (frame : Frame inner about machine after) (arranged : Arranged inner machine) (upright : Upright machine) (waits : inner.still id) (member : kid ∈ kids machine id)
    (apart : ¬ about kid) : On after kid ↔ On machine kid := by
  refine frame.loose kid (upright.known id kid member) apart fun parent other => ?_
  exact arranged.unique parent id kid other member ▸ waits

theorem Frame.ours (frame : Frame scene about start machine) (member : kid ∈ kids machine id) : Ours start id kid := frame.grows.kids id kid member

/-- What moving some nodes right below one leaves behind: they are mounted, or none of them is, and all the others are as before. -/
structure Moves (scene inner : Scene) (about : NodeId → Prop) (id : NodeId) (start : Stage Memory) (these : List NodeId) (shown : Prop) (before after : Stage Memory) : Prop where
  underway : Underway inner scene about start after
  frame : Frame inner (· ∈ these) before after
  record : after.nodes[id]? = before.nodes[id]?
  moved : ∀ kid ∈ these, On after kid ↔ shown
  others : ∀ kid ∈ kids before id, kid ∉ these → (On after kid ↔ On before kid)

section

variable {shown : Prop} {these those : List NodeId} {middle : Stage Memory}

theorem Moves.refl (underway : Underway inner scene about start machine) : Moves scene inner about id start [] shown machine machine :=
  ⟨underway, .refl machine, rfl, nofun, fun _ _ _ => Iff.rfl⟩

theorem kids_of_record (same : after.nodes[id]? = before.nodes[id]?) : kids after id = kids before id := by rw [kids, same, kids]

theorem Moves.trans (first : Moves scene inner about id start these shown before middle) (second : Moves scene inner about id start those shown middle after)
    (inside : these ⊆ kids before id) : Moves scene inner about id start (these ++ those) shown before after := by
  have same := kids_of_record first.record
  refine ⟨second.underway, ?_, second.record.trans first.record, fun kid member => ?_, fun kid member apart => ?_⟩
  · refine (first.frame.mono fun _ => List.mem_append_left _).trans second.frame fun kid member _ => .inl (List.mem_append_right _ member)
  · by_cases again : kid ∈ those
    · exact second.moved kid again
    · have member := (List.mem_append.1 member).resolve_right again
      exact (second.others kid (same ▸ inside member) again).trans (first.moved kid member)
  · rw [List.mem_append, not_or] at apart
    exact (second.others kid (same ▸ member) apart.2).trans (first.others kid member apart.1)

variable (station : Station scene inner id start) (keeps : KeepsScenes calls) (underway : Underway inner scene about start machine) (target : Handle)

include station underway

theorem Station.moved (yields : Yields inner (· = kid) machine after) (later : Underway inner scene about start after) (on : On after kid ↔ shown) :
    Moves scene inner about id start [kid] shown machine after := by
  refine ⟨later, yields.frame.mono fun _ here => List.mem_singleton.2 here, yields.frame.still id station.waits, fun other member => ?_, fun other member apart => ?_⟩
  · rw [List.mem_singleton.1 member]
    exact on
  · exact yields.frame.on_kid underway.tidy.arranged underway.tidy.upright station.waits member fun here => apart (List.mem_singleton.2 here)

include keeps

theorem Station.mounts (calm : Calm inner start) (member : kid ∈ kids machine id) (off : ¬ On machine kid) {anchor : Anchor} (hangs : Hangs inner machine kid target anchor) :
    Ensures .any (calls.mount kid target anchor) machine fun _ after => Moves scene inner about id start [kid] True machine after := by
  have inside := underway.tidy.upright.known id kid member
  refine (station.mount (underway.frame.ours member) keeps underway (underway.tidy.only member) target calm inside off hangs).mono fun _ after ⟨later, yields, on⟩ => ?_
  exact station.moved underway yields later (iff_true_intro on)

theorem Station.unmounts (member : kid ∈ kids machine id) (hangs : ∃ anchor, Hangs inner machine kid target anchor) :
    Ensures .any (calls.unmount kid target) machine fun _ after => Moves scene inner about id start [kid] False machine after := by
  refine (station.unmount (underway.frame.ours member) keeps underway (underway.tidy.only member) target hangs).mono fun _ after ⟨later, yields, off⟩ => ?_
  exact station.moved underway yields later (iff_false_intro off)

variable {above : Handle} {spot : Anchor}

omit underway in
/-- Nodes right below one are unmounted, one after the other. -/
theorem Station.unmounts_all (members : List NodeId) {machine : Stage Memory} (underway : Underway inner scene about start machine) (found : machine.nodes[id]? = some old)
    (hangs : Hangs inner machine id above spot) (puts : ∀ kid ∈ members, ∃ anchor, old.Puts id above spot kid target anchor) :
    Ensures .any (members.forM fun kid => calls.unmount kid target) machine fun _ after => Moves scene inner about id start members False machine after := by
  induction members generalizing machine with
  | nil => exact .refl underway
  | cons kid rest ih =>
    rw [ensures_forM_cons]
    obtain ⟨anchor, isPut⟩ := puts kid List.mem_cons_self
    have member : kid ∈ kids machine id := (mem_kids found).2 (Puts.mem_kids isPut)
    refine (station.unmounts keeps underway target member ⟨anchor, .kid hangs found isPut⟩).mono fun _ between moves => ?_
    refine (ih moves.underway (moves.record.trans found) (moves.frame.hung id above spot (.inr station.waits) hangs) fun other inRest =>
      puts other (List.mem_cons_of_mem _ inRest)).mono fun _ _ rest => moves.trans rest fun _ here => ?_
    exact List.mem_singleton.1 here ▸ member

omit underway in
/-- Nodes right below one are mounted, one behind the other. -/
theorem Station.mounts_chain (calm : Calm inner start) (members : List NodeId) (anchor : Anchor) {machine : Stage Memory} (underway : Underway inner scene about start machine)
    (distinct : members.Nodup) (found : machine.nodes[id]? = some old) (hangs : Hangs inner machine id above spot)
    (puts : ∀ front kid back, members = front ++ kid :: back → old.Puts id above spot kid target (anchor.behind front)) (off : ∀ kid ∈ members, ¬ On machine kid) :
    Ensures .any (mountChain calls target anchor members) machine fun _ after => Moves scene inner about id start members True machine after := by
  induction members generalizing machine anchor with
  | nil => exact .refl underway
  | cons kid rest ih =>
    rw [mountChain, ensures_bind]
    obtain ⟨fresh, distinct⟩ := List.nodup_cons.1 distinct
    have isPut : old.Puts id above spot kid target anchor := puts [] kid rest rfl
    have member : kid ∈ kids machine id := (mem_kids found).2 (Puts.mem_kids isPut)
    refine (station.mounts keeps underway target calm member (off kid List.mem_cons_self) (.kid hangs found isPut)).mono fun _ between moves => ?_
    refine (ih _ moves.underway distinct (moves.record.trans found) (moves.frame.hung id above spot (.inr station.waits) hangs) (fun front other back split =>
      puts (kid :: front) other back (congrArg _ split)) fun other member on => ?_).mono fun _ _ rest => moves.trans rest fun _ here => ?_
    rotate_left
    · exact List.mem_singleton.1 here ▸ (mem_kids found).2 (Puts.mem_kids isPut)
    obtain ⟨front, back, split⟩ := List.append_of_mem member
    have inside : other ∈ kids machine id := (mem_kids found).2 (Puts.mem_kids (puts (kid :: front) other back (congrArg _ split)))
    refine off other (List.mem_cons_of_mem _ member) ((moves.others other inside fun here => ?_).1 on)
    exact fresh (List.mem_singleton.1 here ▸ member)

/-- A node right below one is mounted, if there is one. -/
theorem Station.mounts_optional (calm : Calm inner start) (child : Option NodeId) (anchor : Anchor) (found : machine.nodes[id]? = some old)
    (hangs : Hangs inner machine id above spot) (puts : ∀ kid ∈ child, old.Puts id above spot kid target anchor) (off : ∀ kid ∈ child, ¬ On machine kid) :
    Ensures .any (child.toList.forM fun kid => calls.mount kid target anchor) machine fun _ after => Moves scene inner about id start child.toList True machine after := by
  cases child with
  | none => exact .refl underway
  | some kid =>
    rw [Option.toList_some, ensures_forM_cons]
    exact station.mounts keeps underway target calm ((mem_kids found).2 (Puts.mem_kids (puts kid rfl))) (off kid rfl) (.kid hangs found (puts kid rfl))

end

/-! Writing records. -/

/-- The node under way gets another record, which may keep other effects. -/
theorem Underway.record {pending : Disposable → Prop} (underway : Underway inner scene about start machine) (found : machine.nodes[id]? = some old)
    (same : blank new = blank old) (formed : Formed new) (fair : Fair machine.graph new) (distinct : new.kids.Nodup)
    (grown : ∀ kid ∈ new.kids, kid ∈ old.kids ∨ (start.nodes.size ≤ kid ∧ kid < machine.nodes.size ∧ ¬ Below machine kid id ∧
      kid ∉ machine.world.roots ∧ ∀ parent, kid ∉ kids machine parent))
    (busy : inner.Busy id) (rests : ¬ scene.still id) (mold : scene.opened id → new.mold = old.mold) (shift : (inner.opened id ∧ about id) ∨ new.isOn = old.isOn)
    (lone : ∀ kid ∈ new.kids, inner.opened kid → inner.still id)
    (stock : ∀ disposable, pending disposable ∨ disposable ∈ new.disposables ↔ inner.pending disposable ∨ disposable ∈ old.disposables)
    (loose : ∀ effect, pending (.effect effect) → .effect effect ∉ new.disposables)
    (freed : ∀ effect, pending (.effect effect) → .effect effect ∈ old.disposables → inner.opened id)
    (bound : ∀ effect task subject, Drives machine.graph effect task → task.subject? = some subject → inner.pending (.effect effect) →
      .effect effect ∈ new.disposables → subject = id)
    (taken : ∀ effect, .effect effect ∈ new.disposables → .effect effect ∈ old.disposables ∨ scene.pending (.effect effect) ∨ start.graph.vertices.size ≤ effect)
    (governs : ∀ effect task, Drives machine.graph effect task → task.subject? = some id → Governs inner (recording machine id new) effect task)
    (rehangs : ∀ stead, inner.stead = some stead → Rehangs inner stead machine id old new)
    (links : (∀ target anchor kid home place, old.Puts id target anchor kid home place → new.Puts id target anchor kid home place) ∨
      ∀ kid ∈ Rendering.kids machine id, Clear scene machine kid) :
    Underway { inner with pending } scene about start (recording machine id new) := by
  have upright : Upright (recording machine id new) := underway.tidy.upright.set found formed (fun kid member => (grown kid member).imp_right fun ⟨_, inside, apart, _⟩ => ⟨inside, apart⟩) fair
  have grows : Grows start (recording machine id new) := underway.frame.grows.set found same fun kid member => (grown kid member).imp_right And.left
  refine ⟨underway.tidy.record found upright busy (shift.imp_left And.left) distinct (fun kid member => (grown kid member).imp_right fun ⟨_, _, _, spare⟩ => spare) lone
    stock loose freed bound governs rehangs, ?_, underway.attends, underway.idle⟩
  exact underway.frame.record found grows (fun isBusy => mold (isBusy.resolve_right rests)) rests (shift.imp_left And.right) taken links

/-- A node that waits gets another record that keeps the same. -/
theorem Station.rewrite (station : Station scene inner id start) (underway : Underway inner scene about start machine) (found : machine.nodes[id]? = some old)
    (same : blank new = blank old) (formed : Formed new) (fair : Fair machine.graph new) (distinct : new.kids.Nodup)
    (grown : ∀ kid ∈ new.kids, kid ∈ old.kids ∨ (start.nodes.size ≤ kid ∧ kid < machine.nodes.size ∧ ¬ Below machine kid id ∧
      kid ∉ machine.world.roots ∧ ∀ parent, kid ∉ kids machine parent))
    (mold : scene.opened id → new.mold = old.mold) (shift : (inner.opened id ∧ about id) ∨ new.isOn = old.isOn)
    (stock : ∀ disposable, disposable ∈ new.disposables ↔ disposable ∈ old.disposables)
    (rehangs : ∀ stead, inner.stead = some stead → Rehangs inner stead machine id old new) : Underway inner scene about start (recording machine id new) := by
  have loose (effect : Nat) (isPending : inner.pending (.effect effect)) : .effect effect ∉ old.disposables := fun member =>
    underway.tidy.stocked.loose effect isPending id ((keeps_iff found).2 member)
  have kept : Underway { inner with pending := inner.pending } scene about start (recording machine id new) := by
    refine underway.record found same formed fair distinct grown (.inr station.waits) station.rests mold shift (fun _ _ _ => station.waits)
      (fun disposable => or_congr_right (stock disposable)) (fun effect isPending member => loose effect isPending ((stock _).1 member))
      (fun effect isPending member => absurd member (loose effect isPending))
      (fun effect _ _ _ _ isPending member => absurd ((stock _).1 member) (loose effect isPending)) (fun effect member => .inl ((stock _).1 member))
      (fun effect task drives isSubject => ?_) rehangs (.inr fun kid member other below busy => ?_)
    · exact absurd station.waits ((underway.tidy.driven.steers effect task drives).paused id isSubject)
    · exact station.clear (underway.frame.ours member) underway.frame.grows other below (busy.imp (station.opened other) (station.still other))
  exact kept

/-- The node that waits belongs where it did whatever its record is. -/
theorem Station.hangs_recording {target : Handle} {anchor : Anchor} (station : Station scene inner id start) (underway : Underway inner scene about start machine)
    (found : machine.nodes[id]? = some old) (hangs : Hangs inner machine id target anchor) : Hangs inner (recording machine id new) id target anchor :=
  hangs.record found (.inr station.waits) (.inr fun _ member => station.clear (underway.frame.ours member) underway.frame.grows)

/-- The node under way keeps what has been set up for it. -/
theorem Underway.keep {disposable : Disposable} (underway : Underway (inner.holding (· = disposable)) scene about start machine) (found : machine.nodes[id]? = some old)
    (same : blank new = blank old) (formed : Formed new) (fair : Fair machine.graph new) (kids : new.kids = old.kids) (busy : inner.Busy id) (rests : ¬ scene.still id)
    (mold : ¬ scene.opened id) (shift : (inner.opened id ∧ about id) ∨ new.isOn = old.isOn)
    (lone : ∀ kid ∈ old.kids, inner.opened kid → inner.still id) (keepsToo : new.disposables = old.disposables ++ [disposable])
    (fresh : ∀ effect, disposable = .effect effect → ¬ inner.pending (.effect effect) ∧ start.graph.vertices.size ≤ effect ∧
      ∃ task, Drives machine.graph effect task ∧ ∀ other, task.subject? = some other → other = id)
    (governs : ∀ effect task, Drives machine.graph effect task → task.subject? = some id →
      Governs (inner.holding (· = disposable)) machine effect task → Governs inner (recording machine id new) effect task)
    (berthed : berth new = berth old) (hung : new.isOn = true → old.isOn = true ∨ ∃ target anchor, Hangs inner machine id target anchor) :
    Underway inner scene about start (recording machine id new) := by
  have loose (other : Nat) (isPending : (inner.holding (· = disposable)).pending (.effect other)) : .effect other ∉ old.disposables := fun member =>
    underway.tidy.stocked.loose other isPending id ((keeps_iff found).2 member)
  have mem_new {other : Disposable} : other ∈ new.disposables ↔ other ∈ old.disposables ∨ other = disposable := by
    simp [keepsToo]
  have kept : Underway { inner.holding (· = disposable) with pending := inner.pending } scene about start (recording machine id new) := by
    refine underway.record found same formed fair (kids ▸ ?_) (fun kid member => .inl (kids ▸ member)) busy rests (fun isOpened => absurd isOpened mold) shift
      (fun kid member => lone kid (kids ▸ member)) (fun other => ?_) (fun other isPending member => ?_) (fun other isPending member => absurd member (loose other (.inl isPending)))
      (fun other body subject drivesOther isSubject isPending member => ?_) (fun other member => ?_) (fun other body drivesOther isSubject => ?_) (fun stead here => ?_)
      (.inl fun target anchor kid home place => (puts_of_berth berthed target anchor kid home place).2)
    · have distinct := underway.tidy.arranged.distinct id
      rwa [Rendering.kids, found, Option.elim_some] at distinct
    · rw [mem_new]
      constructor
      · rintro (isPending | member | rfl)
        · exact .inl (.inl isPending)
        · exact .inr member
        · exact .inl (.inr rfl)
      · rintro ((isPending | rfl) | member)
        · exact .inl isPending
        · exact .inr (.inr rfl)
        · exact .inr (.inl member)
    · obtain member | here := mem_new.1 member
      · exact loose other (.inl isPending) member
      · exact (fresh other here.symm).1 isPending
    · obtain member | here := mem_new.1 member
      · exact absurd member (loose other isPending)
      · obtain ⟨_, _, task, drives, subjects⟩ := fresh other here.symm
        cases drivesOther.unique drives
        exact subjects subject isSubject
    · exact (mem_new.1 member).imp_right fun here => .inr (fresh other here.symm).2.1
    · exact (governs other body drivesOther isSubject (underway.tidy.driven.steers other body drivesOther).governs).rescene fun _ _ => .inl
    · refine .of_berth (underway.tidy.placed stead here) found berthed fun on => (hung on).imp_right fun hung => ?_
      obtain ⟨target, anchor, hangs⟩ := hung
      exact ⟨target, anchor, hangs.congr rfl rfl fun _ _ _ guarded => guarded⟩
  exact kept

/-- The node under way keeps an effect that has been set up for it. -/
theorem Underway.adopt (underway : Underway (inner.holding (· = .effect effect)) scene about start machine) (found : machine.nodes[id]? = some old)
    (same : blank new = blank old) (formed : Formed new) (fair : Fair machine.graph new) (kids : new.kids = old.kids) (busy : inner.Busy id) (rests : ¬ scene.still id)
    (mold : ¬ scene.opened id) (shift : (inner.opened id ∧ about id) ∨ new.isOn = old.isOn)
    (lone : ∀ kid ∈ old.kids, inner.opened kid → inner.still id) (keepsToo : new.disposables = old.disposables ++ [.effect effect]) (fresh : ¬ inner.pending (.effect effect))
    (drives : Drives machine.graph effect task) (subject : ∀ other, task.subject? = some other → other = id) (isNew : start.graph.vertices.size ≤ effect)
    (governs : ∀ effect task, Drives machine.graph effect task → task.subject? = some id →
      Governs (inner.holding (· = .effect effect)) machine effect task → Governs inner (recording machine id new) effect task)
    (berthed : berth new = berth old) (hung : new.isOn = true → old.isOn = true ∨ ∃ target anchor, Hangs inner machine id target anchor) :
    Underway inner scene about start (recording machine id new) := by
  refine underway.keep found same formed fair kids busy rests mold shift lone keepsToo ?_ governs berthed hung
  rintro _ ⟨⟩
  exact ⟨fresh, isNew, task, drives, subject⟩

/-- What the node under way has kept is taken back. -/
theorem Underway.emptied (keeps : KeepsScenes calls) (underway : Underway inner scene about start machine) (found : machine.nodes[id]? = some old)
    (same : blank new = blank old) (formed : Formed new) (fair : Fair machine.graph new) (kids : new.kids = old.kids) (isOpened : inner.opened id)
    (rests : ¬ scene.Busy id) (on : new.isOn = old.isOn) (lone : ∀ kid ∈ old.kids, inner.opened kid → inner.still id) (empty : new.disposables = [])
    (pending : inner.pending = scene.pending)
    (governs : ∀ effect task, Drives machine.graph effect task → task.subject? = some id → Governs inner machine effect task → Governs inner (recording machine id new) effect task)
    (berthed : berth new = berth old) :
    Ensures .any (disposeAll calls old.disposables) (recording machine id new) fun _ after => Underway inner scene about start after ∧
      after.nodes = (recording machine id new).nodes ∧ machine.document.Undisturbed after.document ∧
        ∀ effect task, Drives after.graph effect task → Drives machine.graph effect task ∧ .effect effect ∉ old.disposables := by
  have emptied : Underway (inner.holding (· ∈ old.disposables)) scene about start (recording machine id new) := by
    refine underway.record found same formed fair (kids ▸ ?_) (fun kid member => .inl (kids ▸ member)) (.inl isOpened) (fun isStill => rests (.inr isStill))
      (fun isOpened => absurd (.inl isOpened) rests) (.inr on) (fun kid member => lone kid (kids ▸ member)) (fun disposable => ?_) (fun effect _ member => ?_)
      (fun _ _ _ => isOpened) (fun _ _ _ _ _ _ member => ?_) (fun effect member => ?_) (fun effect task drives isSubject => ?_)
      (fun stead here => .of_berth (underway.tidy.placed stead here) found berthed fun isOn => .inl (on ▸ isOn))
      (.inl fun target anchor kid home place => (puts_of_berth berthed target anchor kid home place).2)
    · have distinct := underway.tidy.arranged.distinct id
      rwa [Rendering.kids, found, Option.elim_some] at distinct
    · simp [empty]
    · simp [empty] at member
    · simp [empty] at member
    · simp [empty] at member
    · exact governs effect task drives isSubject (underway.tidy.driven.steers effect task drives).governs
  have needless (effect : Nat) (member : .effect effect ∈ old.disposables) : ¬ Needed scene (recording machine id new) effect := by
    have mine : Keeps machine id (.effect effect) := (keeps_iff found).2 member
    rintro (isPending | ⟨other, busy, isKept⟩)
    · exact underway.tidy.stocked.loose effect (pending ▸ isPending) id mine
    · by_cases here : other = id
      · exact rests (here ▸ busy)
      · exact here (underway.tidy.stocked.apart other id effect ((keeps_recording_of_ne here).1 isKept) mine)
  refine (drops_disposeAll keeps old.disposables emptied.tidy fun effect member => ⟨.inr member, needless effect member⟩).mono fun _ after drops => ?_
  have sofar : Underway (inner.holding (· ∈ old.disposables)) scene about start after := emptied.trans drops.toUnderway fun _ => False.elim
  have tidy : Tidy inner after := drops.tidy.forget (fun effect task drives => (drops.dropped effect task drives).2) fun subscription listens => (drops.silent subscription listens).2
  exact ⟨{ sofar with tidy }, drops.nodes, drops.undisturbed, drops.dropped⟩

/-! Ending. -/

theorem Underway.resume (underway : Underway (scene.opening id) scene about start machine) (tidy : Tidy scene start) (movable : Movable scene start id) :
    Underway (scene.following id) scene about start machine := by
  refine { underway with tidy := underway.tidy.resume fun kid member isOpened => ?_ }
  obtain old | new := underway.frame.ours member
  · exact movable.clear kid (.single old) (.inl isOpened)
  · exact absurd (tidy.arranged.inside kid (.inl isOpened)) (Nat.not_lt.2 new)

theorem Underway.leave (underway : Underway (scene.following id) scene about start machine) (found : machine.nodes[id]? = some new) (settled : Settled machine id new)
    (steered : ∀ effect task, Drives machine.graph effect task → task.subject? = some id → Keeps machine id (.effect effect) ∧ On machine id)
    (stands : ∀ stead, scene.stead = some stead → ∀ handle, new.handle? = some handle → ∃ target, machine.document.ChildOf handle target) :
    Yields scene about start machine := by
  refine { underway with tidy := underway.tidy.leave (fun node again => ?_) steered fun stead here handle owns => stands stead here handle ((owns_iff found).1 owns) }
  cases found.symm.trans again
  exact settled

/-- A node that nothing drives comes to rest. -/
theorem Underway.close (underway : Underway (scene.opening id) scene about start machine) (tidy : Tidy scene start) (movable : Movable scene start id)
    (found : machine.nodes[id]? = some new) (settled : Settled machine id new)
    (stands : ∀ stead, scene.stead = some stead → ∀ handle, new.handle? = some handle → ∃ target, machine.document.ChildOf handle target) :
    Yields scene about start machine :=
  (underway.resume tidy movable).leave found settled (fun effect task drives isSubject =>
    absurd (.inr rfl) ((underway.tidy.driven.steers effect task drives).paused id isSubject)) stands

/-- The effect of a node has been taken back. -/
theorem Underway.halt (underway : Underway (scene.following id) scene about start machine) (idle : ∀ effect task, Drives machine.graph effect task → task.subject? ≠ some id) :
    Underway (scene.opening id) scene about start machine := by
  refine { underway with tidy := underway.tidy.pausing ?_ fun effect task subject drives isSubject here => idle effect task drives (here ▸ isSubject) }
  rintro _ rfl
  exact underway.tidy.arranged.inside _ (.inl (.inr rfl))

theorem Settled.mounted (on : new.isOn = true) (filled : Filled machine new) (watched : Watched machine id new) : Settled machine id new := by
  have never {p : Prop} (off : new.isOn = false) : p := by cases on.symm.trans off
  exact ⟨never, never, fun _ => filled, fun _ => watched⟩

theorem Settled.unmounted (off : new.isOn = false) (shut : ∀ kid ∈ new.kids, ¬ On machine kid) (bare : new.Bare) : Settled machine id new := by
  have never {p : Prop} (on : new.isOn = true) : p := by cases on.symm.trans off
  exact ⟨fun _ => shut, fun _ => bare, never, never⟩

end ReactiveMarkup.Rendering
