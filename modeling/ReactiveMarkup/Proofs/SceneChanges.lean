import ReactiveMarkup.Proofs.SceneScripts

/-! How scenes change: nodes begin to be mounted or unmounted and come to rest, their effects are held back and let go,
and their records are written. -/

namespace ReactiveMarkup.Rendering

open ReactiveMarkup.Step ReactiveMarkup.Graph ReactiveMarkup.Machine Tidy Stocked

variable {Memory : Type} {about : NodeId → Prop} {scene other inner : Scene} {start machine : Stage Memory} {id : NodeId}

section

theorem Governs.rescene {effect : Nat} {task : Task (Code Memory)} (governs : Governs scene machine effect task)
    (opened : ∀ id, task.subject? = some id → scene.opened id → other.opened id ∨ On machine id) : Governs other machine effect task := by
  cases task with
  | items id target =>
    obtain ⟨list, found, mounted | isOpened, lists⟩ := governs
    · exact ⟨list, found, .inl mounted, lists⟩
    · exact ⟨list, found, (opened id rfl isOpened).symm.imp_left (on_iff found).1, lists⟩
  | _ => exact governs

/-- Other steps are under way. -/
theorem Tidy.rescene (tidy : Tidy scene machine) (inside : ∀ id, other.Busy id → id < machine.nodes.size)
    (upward : ∀ id, other.opened id → ∀ parent, id ∈ kids machine parent → other.still parent)
    (settled : ∀ id node, machine.nodes[id]? = some node → scene.Busy id → ¬ other.Busy id → Settled machine id node)
    (pending : ∀ effect, other.pending (.effect effect) → scene.pending (.effect effect))
    (steers : ∀ effect task, Drives machine.graph effect task → Steers scene machine effect task → Steers other machine effect task)
    (placed : ∀ stead, other.stead = some stead → Placed other stead machine) : Tidy other machine := by
  refine ⟨tidy.upright, ⟨tidy.arranged.unique, tidy.arranged.distinct, tidy.arranged.roots, inside, upward, fun id node found rests => ?_⟩,
    ⟨tidy.stocked.apart, fun effect isPending => tidy.stocked.loose effect (pending effect isPending),
      fun effect stock => tidy.stocked.tame effect (stock.imp_left (pending effect)), tidy.stocked.scripts⟩,
    ⟨fun effect task drives => steers effect task drives (tidy.driven.steers effect task drives), tidy.driven.sole⟩, placed⟩
  by_cases busy : scene.Busy id
  · exact settled id node found busy rests
  · exact tidy.arranged.settled id node found busy

/-- A node begins to be mounted or unmounted, and its effect goes on running. -/
theorem Tidy.following (tidy : Tidy scene machine) (inside : id < machine.nodes.size) (waiting : ∀ parent, id ∈ kids machine parent → scene.still parent) :
    Tidy (scene.following id) machine := by
  refine tidy.rescene ?_ ?_ (fun other _ _ busy rests => absurd (busy.imp_left .inl) rests) (fun _ isPending => isPending) (fun effect task _ steers => ?_)
    fun stead here => (tidy.placed stead here).rescene rfl (fun _ _ _ => Iff.rfl) (fun _ _ _ rests busy => absurd (busy.imp_left .inl) rests) fun _ _ => .inl
  · rintro other ((isOpened | rfl) | isStill)
    · exact tidy.arranged.inside other (.inl isOpened)
    · exact inside
    · exact tidy.arranged.inside other (.inr isStill)
  · rintro other (isOpened | rfl)
    · exact tidy.arranged.upward other isOpened
    · exact waiting
  · exact ⟨steers.kept.imp_left fun ⟨isPending, subjects⟩ => ⟨isPending, fun subject isSubject => .inl (subjects subject isSubject)⟩, steers.paused,
      steers.governs.rescene fun _ _ isOpened => .inl (.inl isOpened)⟩

/-- Nodes that have no effect are held back. -/
theorem Tidy.pausing {nodes : NodeId → Prop} (tidy : Tidy scene machine) (inside : ∀ id, nodes id → id < machine.nodes.size)
    (idle : ∀ effect task subject, Drives machine.graph effect task → task.subject? = some subject → ¬ nodes subject) : Tidy (scene.pausing nodes) machine := by
  refine tidy.rescene ?_ (fun other isOpened parent member => .inl (tidy.arranged.upward other isOpened parent member))
    (fun other _ _ busy rests => absurd (busy.imp_right .inl) rests) (fun _ isPending => isPending) (fun effect task drives steers => ?_)
    fun stead here => (tidy.placed stead here).rescene rfl (fun _ _ _ => Iff.rfl) (fun _ _ _ rests busy => absurd (busy.imp_right .inl) rests) fun _ _ => .inl
  · rintro other (isOpened | isStill | isPaused)
    · exact tidy.arranged.inside other (.inl isOpened)
    · exact tidy.arranged.inside other (.inr isStill)
    · exact inside other isPaused
  · exact ⟨steers.kept, fun subject isSubject => fun
      | .inl isStill => steers.paused subject isSubject isStill
      | .inr isPaused => idle effect task subject drives isSubject isPaused, steers.governs.rescene fun _ _ => .inl⟩

/-- The effect of a node may run again. -/
theorem Tidy.resume (tidy : Tidy (scene.opening id) machine) (lone : ∀ kid ∈ kids machine id, ¬ scene.opened kid) : Tidy (scene.following id) machine := by
  have busy (other : NodeId) (isBusy : (scene.opening id).Busy other) : (scene.following id).Busy other := by
    obtain isOpened | isStill | rfl := isBusy
    · exact .inl isOpened
    · exact .inr isStill
    · exact .inl (.inr rfl)
  refine tidy.rescene (fun other isBusy => tidy.arranged.inside other (isBusy.imp_right .inl)) (fun kid isOpened parent member => ?_)
    (fun other _ _ isBusy rests => absurd (busy other isBusy) rests) (fun _ isPending => isPending)
    (fun effect task _ steers => ⟨steers.kept, fun subject isSubject isStill => steers.paused subject isSubject (.inl isStill), steers.governs.rescene fun _ _ => .inl⟩)
    fun stead here => (tidy.placed stead here).rescene rfl (fun _ _ _ => Iff.rfl) (fun other _ _ rests isBusy => absurd (busy other isBusy) rests) fun _ _ => .inl
  obtain isStill | rfl := tidy.arranged.upward kid isOpened parent member
  · exact isStill
  · obtain isOpened | rfl := isOpened
    · exact absurd isOpened (lone kid member)
    · exact absurd .refl (tidy.upright.acyclic kid kid member)

/-- A node has been mounted or unmounted. -/
theorem Tidy.leave (tidy : Tidy (scene.following id) machine) (settled : ∀ node, machine.nodes[id]? = some node → Settled machine id node)
    (steered : ∀ effect task, Drives machine.graph effect task → task.subject? = some id → Keeps machine id (.effect effect) ∧ On machine id)
    (stands : ∀ stead, scene.stead = some stead → ∀ handle, Owns machine id handle → ∃ target, machine.document.ChildOf handle target) :
    Tidy scene machine := by
  refine tidy.rescene (fun other isBusy => tidy.arranged.inside other (isBusy.imp_left .inl)) (fun kid isOpened => tidy.arranged.upward kid (.inl isOpened))
    (fun other node found isBusy rests => ?_) (fun _ isPending => isPending) (fun effect task drives steers => ⟨?_, steers.paused, ?_⟩) fun stead here =>
    (tidy.placed stead here).rescene rfl (fun _ _ _ => Iff.rfl) (fun other handle owns rests isBusy => ?_) fun _ _ => .inl
  · obtain (isOpened | rfl) | isStill := isBusy
    · exact absurd (.inl isOpened) rests
    · exact settled node found
    · exact absurd (.inr isStill) rests
  · obtain ⟨isPending, subjects⟩ | isKept := steers.kept
    · by_cases here : task.subject? = some id
      · exact absurd (steered effect task drives here).1 (tidy.stocked.loose effect isPending id)
      · refine .inl ⟨isPending, fun subject isSubject => (subjects subject isSubject).resolve_right ?_⟩
        rintro rfl
        exact here isSubject
    · exact .inr isKept
  · refine steers.governs.rescene fun subject isSubject => fun
      | .inl isOpened => .inl isOpened
      | .inr here => .inr (here ▸ (steered effect task drives (here ▸ isSubject)).2)
  · obtain (isOpened | rfl) | isStill := isBusy
    · exact absurd (.inl isOpened) rests
    · exact stands stead here handle owns
    · exact absurd (.inr isStill) rests

/-- What has been taken back is not pending any more. -/
theorem Tidy.forget {disposables : Disposable → Prop} (tidy : Tidy (scene.holding disposables) machine)
    (idle : ∀ effect task, Drives machine.graph effect task → ¬ disposables (.effect effect))
    (silent : ∀ subscription ∈ machine.document.subscriptions, ¬ disposables (.subscription subscription.id)) : Tidy scene machine :=
  tidy.rescene tidy.arranged.inside tidy.arranged.upward (fun _ _ _ busy rests => absurd busy rests) (fun _ => .inl) (fun effect task drives steers =>
    ⟨steers.kept.imp_left fun ⟨isPending, subjects⟩ => ⟨isPending.resolve_right (idle effect task drives), subjects⟩, steers.paused, steers.governs.rescene fun _ _ => .inl⟩)
    fun stead here => (tidy.placed stead here).rescene rfl (fun _ _ _ => Iff.rfl) (fun _ _ _ rests busy => absurd busy rests) fun subscription member isPending =>
      .inl (isPending.resolve_right (silent subscription member))

end

/-! Another record for a node. -/

section

variable {old new : Node (Code Memory)} (found : machine.nodes[id]? = some old)

include found

/-- A machine with another record for a node. -/
abbrev recording (machine : Stage Memory) (id : NodeId) (new : Node (Code Memory)) : Stage Memory := { machine with nodes := machine.nodes.set! id new }

theorem recording_self : (recording machine id new).nodes[id]? = some new := getElem?_setNode found new

omit found in
theorem recording_of_ne {other : NodeId} (apart : other ≠ id) : (recording machine id new).nodes[other]? = machine.nodes[other]? :=
  @getElem?_setNode_of_ne (Host.rendering Memory) machine id other apart new

omit found in
theorem size_recording : (recording machine id new).nodes.size = machine.nodes.size := by
  rw [recording, Array.set!_eq_setIfInBounds, Array.size_setIfInBounds]

theorem kids_recording_self : kids (recording machine id new) id = new.kids := by rw [kids, recording_self found, Option.elim_some]

omit found in
theorem kids_recording_of_ne {other : NodeId} (apart : other ≠ id) : kids (recording machine id new) other = kids machine other := by
  rw [kids, recording_of_ne apart, kids]

theorem on_recording_self : On (recording machine id new) id ↔ new.isOn = true := on_iff (recording_self found)

omit found in
theorem on_recording_of_ne {other : NodeId} (apart : other ≠ id) : On (recording machine id new) other ↔ On machine other := by
  rw [On, recording_of_ne apart, On]

theorem keeps_recording_self {disposable : Disposable} : Keeps (recording machine id new) id disposable ↔ disposable ∈ new.disposables :=
  keeps_iff (recording_self found)

omit found in
theorem keeps_recording_of_ne {other : NodeId} (apart : other ≠ id) {disposable : Disposable} :
    Keeps (recording machine id new) other disposable ↔ Keeps machine other disposable := by
  rw [Keeps, recording_of_ne apart, Keeps]

theorem owns_recording_self {handle : Handle} : Owns (recording machine id new) id handle ↔ new.handle? = some handle := owns_iff (recording_self found)

omit found in
theorem owns_recording_of_ne {other : NodeId} (apart : other ≠ id) {handle : Handle} : Owns (recording machine id new) other handle ↔ Owns machine other handle := by
  rw [Owns, recording_of_ne apart, Owns]

/-- Whether another node is mounted is the same if the node is mounted as before. -/
theorem on_recording (same : new.isOn = old.isOn) (other : NodeId) : On (recording machine id new) other ↔ On machine other := by
  by_cases here : other = id
  · rw [here, on_recording_self found, on_iff found, same]
  · exact on_recording_of_ne here

/-- What is kept for nodes is the same if the record keeps the same. -/
theorem keeps_recording (same : new.disposables = old.disposables) (other : NodeId) (disposable : Disposable) :
    Keeps (recording machine id new) other disposable ↔ Keeps machine other disposable := by
  by_cases here : other = id
  · rw [here, keeps_recording_self found, keeps_iff found, same]
  · exact keeps_recording_of_ne here

end

theorem Settled.of_on {node : Node (Code Memory)} {after : Stage Memory} (settled : Settled machine id node) (on : ∀ kid ∈ node.kids, On after kid ↔ On machine kid)
    (keeps : ∀ effect, Keeps machine id (.effect effect) → Keeps after id (.effect effect)) (graph : after.graph = machine.graph) : Settled after id node := by
  refine ⟨fun off kid member isOn => settled.shut off kid member ((on kid member).1 isOn), settled.bare, fun isOn => ?_, fun isOn => ?_⟩
  · have filled := settled.filled isOn
    cases node with
    | element node => exact fun child member => (on child (Option.mem_toList.2 member)).2 (filled child member)
    | fragment node => exact fun child member => (on child member).2 (filled child member)
    | component node => exact fun child member => (on child (Option.mem_toList.2 member)).2 (filled child member)
    | text | conditional | list => trivial
  · have watched := settled.watched isOn
    cases node with
    | conditional =>
      obtain ⟨effect, target, anchor, isKept, drives⟩ := watched
      exact ⟨effect, target, anchor, keeps effect isKept, graph ▸ drives⟩
    | list =>
      obtain ⟨effect, target, isKept, drives⟩ := watched
      exact ⟨effect, target, keeps effect isKept, graph ▸ drives⟩
    | element | text | fragment | component => trivial

theorem Governs.recording {new : Node (Code Memory)} {effect : Nat} {task : Task (Code Memory)} (governs : Governs scene machine effect task)
    (apart : task.subject? ≠ some id)
    (on : ∀ subject, task.subject? = some subject → ∀ kid ∈ kids machine subject, On (recording machine id new) kid ↔ On machine kid) :
    Governs scene (recording machine id new) effect task := by
  have away {subject : NodeId} (isSubject : task.subject? = some subject) : subject ≠ id := by
    rintro rfl
    exact apart isSubject
  cases task with
  | branches subject target anchor =>
    obtain ⟨node, found, mounted, presents, selection, follows⟩ := governs
    refine ⟨node, (recording_of_ne (away rfl)).trans found, mounted, fun kid member => ?_, selection, follows.selected, follows.active, follows.current⟩
    exact (on subject rfl kid ((mem_kids found).2 member)).trans (presents kid member)
  | items subject target =>
    obtain ⟨list, found, mounted, keyed, entries, empty, distinct, complete⟩ := governs
    refine ⟨list, (recording_of_ne (away rfl)).trans found, mounted, keyed, fun entry member => ?_, fun none member => ?_, distinct, complete⟩
    · refine (on subject rfl entry.2.node ((mem_kids found).2 ?_)).2 (entries entry member)
      exact List.mem_append_left _ (List.mem_map_of_mem member)
    · refine (on subject rfl none ((mem_kids found).2 ?_)).trans (empty none member)
      exact List.mem_append_right _ (Option.mem_toList.2 member)
  | text subject accessor =>
    obtain ⟨node, found, shown⟩ := governs
    exact ⟨node, (recording_of_ne (away rfl)).trans found, shown⟩
  | property | classes | host => trivial

/-- Places stay what they were but for those below a node. -/
theorem Hangs.avoid {before after : Stage Memory} {target : Handle} {anchor : Anchor} {kid : NodeId} (hangs : Hangs scene before kid target anchor) (same : other.stead = scene.stead)
    (puts : ∀ parent node, before.nodes[parent]? = some node → parent ≠ id → ∀ target anchor kid home place, node.Puts parent target anchor kid home place →
      Hangs other after parent target anchor → Hangs other after kid home place)
    (wards : ∀ holder kid key, scene.wards holder kid key → other.wards holder kid key) (clear : ∀ kid ∈ kids before id, Clear scene before kid) :
    Hangs other after kid target anchor ∨ ∃ top ∈ kids before id, Below before top kid := by
  induction hangs with
  | adrift free => exact .inl (.adrift (same.trans free))
  | root here => exact .inl (.root (same.trans here))
  | @kid parent kid node _ _ _ _ _ found isPut ih =>
    have member : kid ∈ kids before parent := (mem_kids found).2 (Puts.mem_kids isPut)
    obtain above | ⟨top, isTop, below⟩ := ih
    · by_cases here : parent = id
      · exact .inr ⟨kid, here ▸ member, .refl⟩
      · exact .inl (puts parent node found here _ _ _ _ _ isPut above)
    · exact .inr ⟨top, isTop, below.tail member⟩
  | ward _ guarded ih =>
    obtain above | ⟨top, isTop, below⟩ := ih
    · exact .inl (.ward above (wards _ _ _ guarded))
    · exact absurd (.inr (scene.guards _ _ _ guarded)) (clear top isTop _ below)

/-- What another record of a node does to places. What is below the node stays where it belongs, or is not mounted. A
handle that it comes to own stands nowhere yet, and one that it owned has been taken away for good. -/
structure Rehangs (scene : Scene) (stead : Stead) (machine : Stage Memory) (id : NodeId) (old new : Node (Code Memory)) : Prop where
  links : (∀ target anchor kid home place, old.Puts id target anchor kid home place → new.Puts id target anchor kid home place ∨
      ∃ key, scene.wards id kid key ∧ home = target ∧ place = key.elim anchor (.item id)) ∨
    ∀ kid ∈ old.kids, Clear scene machine kid ∧ ∀ other, Below machine kid other → ¬ On machine other
  adopted : ∀ kid ∈ new.kids, kid ∈ old.kids ∨ ∃ key, scene.wards id kid key
  place : ∀ kid key, scene.wards id kid key → ∀ target anchor home place, new.Puts id target anchor kid home place →
    home = target ∧ place = key.elim anchor (.item id)
  hung : new.isOn = true → old.isOn = true ∨ ∃ target anchor, Hangs scene machine id target anchor
  gained : ∀ handle, new.handle? = some handle → old.handle? = some handle ∨
    (stead.base ≤ handle ∧ machine.document.Known handle ∧ (∀ owner, ¬ Owns machine owner handle) ∧ machine.document.parent? handle = none ∧
      ∃ target anchor, Hangs scene machine id target anchor ∧ target < handle)
  lost : ∀ handle, old.handle? = some handle → new.handle? = some handle ∨
    (machine.document.parent? handle = none ∧ Document.Since stead.past (Operation.Retired handle) machine.document)
  anchored : ∀ list, old = .list list → ∃ later, new = .list later ∧
    (later.anchor = list.anchor ∨ ∀ effect target, ¬ Drives machine.graph effect (.items id target))

/-- A node without what has nothing to do with places. -/
def berth : Node (Code Memory) → Node (Code Memory)
  | .element node => .element { node with disposables := [] }
  | .text node => .text { node with disposables := [] }
  | .fragment node => .fragment { node with mounted := false }
  | .conditional node => .conditional { node with selected := none, active := none, mounted := false, disposables := [] }
  | .list node => .list { node with keys := [], emptyMounted := false, mounted := false, disposables := [] }
  | .component node => .component { node with mounted := false }

theorem puts_of_berth {old new : Node (Code Memory)} (same : berth new = berth old) (target : Handle) (anchor : Anchor) (kid : NodeId) (home : Handle) (place : Anchor) :
    new.Puts id target anchor kid home place ↔ old.Puts id target anchor kid home place := by
  cases old <;> cases new <;> first | cases same | skip
  all_goals simp only [berth, Node.element.injEq, Node.text.injEq, Node.fragment.injEq, Node.conditional.injEq, Node.list.injEq, Node.component.injEq,
    ElementNode.mk.injEq, FragmentNode.mk.injEq, ConditionalNode.mk.injEq, ListNode.mk.injEq, ComponentNode.mk.injEq] at same
  all_goals simp [Node.Puts, Node.kids, same]

/-- A record that says the same about places. -/
theorem Rehangs.of_berth {stead : Stead} {old new : Node (Code Memory)} (placed : Placed scene stead machine) (found : machine.nodes[id]? = some old) (same : berth new = berth old)
    (hung : new.isOn = true → old.isOn = true ∨ ∃ target anchor, Hangs scene machine id target anchor) : Rehangs scene stead machine id old new := by
  have puts := @puts_of_berth Memory id old new same
  have kids : new.kids = old.kids := by
    cases old <;> cases new <;> simp_all [berth, Node.kids]
  have handle : new.handle? = old.handle? := by
    cases old <;> cases new <;> simp_all [berth, Node.handle?]
  refine ⟨.inl fun target anchor kid home place isPut => .inl ((puts ..).2 isPut), fun kid member => .inl (kids ▸ member),
    fun kid key guarded target anchor home place isPut => (placed.wards id kid key guarded).place old target anchor home place found ((puts ..).1 isPut), hung,
    fun _ owns => .inl (handle ▸ owns), fun _ owns => .inl (handle ▸ owns), ?_⟩
  rintro list rfl
  cases new with
  | list later =>
    refine ⟨later, rfl, .inl ?_⟩
    simp only [berth, Node.list.injEq, ListNode.mk.injEq] at same
    exact same.2.2.2.2.1
  | _ => cases same

/-- Places after a busy node has got another record. -/
theorem Placed.record {stead : Stead} {old new : Node (Code Memory)} {pending : Disposable → Prop} (placed : Placed scene stead machine) (tidy : Tidy scene machine)
    (found : machine.nodes[id]? = some old) (busy : scene.Busy id)
    (rehangs : Rehangs scene stead machine id old new) (kept : ∀ subscription, scene.pending (.subscription subscription) ∨ .subscription subscription ∈ old.disposables →
      pending (.subscription subscription) ∨ .subscription subscription ∈ new.disposables) : Placed { scene with pending } stead (recording machine id new) := by
  obtain ⟨links, adopted, place, hung, gained, lost, anchored⟩ := rehangs
  have move {kid : NodeId} {target : Handle} {anchor : Anchor} (hangs : Hangs scene machine kid target anchor) (alive : On machine kid ∨ scene.Busy kid) :
      Hangs { scene with pending } (recording machine id new) kid target anchor := by
    have elsewhere {parent kid : NodeId} {node : Node (Code Memory)} {target home : Handle} {anchor place : Anchor} (foundParent : machine.nodes[parent]? = some node)
        (apart : parent ≠ id) (isPut : node.Puts parent target anchor kid home place) (above : Hangs { scene with pending } (recording machine id new) parent target anchor) :
        Hangs { scene with pending } (recording machine id new) kid home place := .kid above ((recording_of_ne apart).trans foundParent) isPut
    obtain puts | off := links
    · refine hangs.carry rfl (fun parent node foundParent target anchor kid home place isPut above => ?_) fun holder kid key guarded _ _ above => .ward above guarded
      by_cases here : parent = id
      · subst here
        cases found.symm.trans foundParent
        obtain isPut | ⟨key, guarded, rfl, rfl⟩ := puts _ _ _ _ _ isPut
        · exact .kid above (recording_self found) isPut
        · exact .ward above guarded
      · exact elsewhere foundParent here isPut above
    · have either : Hangs { scene with pending } (recording machine id new) kid target anchor ∨ ∃ top ∈ kids machine id, Below machine top kid :=
        hangs.avoid rfl (fun parent node foundParent apart _ _ _ _ _ isPut above => elsewhere foundParent apart isPut above) (fun _ _ _ guarded => guarded)
          fun top isTop => (off top ((mem_kids found).1 isTop)).1
      obtain moved | ⟨top, isTop, below⟩ := either
      · exact moved
      · obtain ⟨clear, dark⟩ := off top ((mem_kids found).1 isTop)
        exact (alive.elim (dark kid below) (clear kid below)).elim
  refine placed.shift id rfl rfl (fun holder kid key guarded => ?_) (fun kid target anchor on hangs => ?_) (fun kid on => ?_) (fun owner handle owns => ?_)
    (fun owner handle owns => ?_) (fun owner handle owns rests => .inl ⟨rests, ?_⟩) (fun subscription stock => ?_) fun effect task drives => ?_
  · obtain ⟨known, rootless, above, placeOld, sole⟩ := placed.wards holder kid key guarded
    refine ⟨size_recording.symm ▸ known, rootless, fun parent member => ?_, fun node target anchor home spot foundHolder isPut => ?_, sole⟩
    · by_cases here : parent = id
      · subst here
        rw [kids_recording_self found] at member
        obtain member | ⟨again, guardedToo⟩ := adopted kid member
        · exact above parent ((mem_kids found).2 member)
        · exact (sole parent again guardedToo).1
      · exact above parent (kids_recording_of_ne here ▸ member)
    · by_cases here : holder = id
      · subst here
        cases (recording_self found).symm.trans foundHolder
        exact place kid key guarded target anchor home spot isPut
      · exact placeOld node target anchor home spot ((recording_of_ne here).symm.trans foundHolder) isPut
  · by_cases here : kid = id
    · exact move hangs (.inr (here ▸ busy))
    · exact move hangs (.inl ((on_recording_of_ne here).1 on))
  · by_cases here : kid = id
    · subst here
      obtain was | ⟨target, anchor, hangs⟩ := hung ((on_recording_self found).1 on)
      · exact .inl ((on_iff found).2 was)
      · exact .inr ⟨target, anchor, move hangs (.inr busy)⟩
    · exact .inl ((on_recording_of_ne here).1 on)
  · by_cases here : owner = id
    · subst here
      refine (gained handle ((owns_recording_self found).1 owns)).imp (owns_iff found).2 fun ⟨inside, known, unused, rests, target, anchor, hangs, less⟩ => ?_
      exact ⟨rfl, inside, known, unused, rests, target, anchor, move hangs (.inr busy), less⟩
    · exact .inl ((owns_recording_of_ne here).1 owns)
  · by_cases here : owner = id
    · subst here
      exact (lost handle ((owns_iff found).1 owns)).imp_left (owns_recording_self found).2
    · exact .inl ((owns_recording_of_ne here).2 owns)
  · have here : owner ≠ id := by
      rintro rfl
      exact rests busy
    exact (owns_recording_of_ne here).1 owns
  · have mine (either : scene.pending (.subscription subscription) ∨ .subscription subscription ∈ old.disposables) :
        pending (.subscription subscription) ∨ ∃ other, Keeps (recording machine id new) other (.subscription subscription) :=
      (kept subscription either).imp_right fun member => ⟨id, (keeps_recording_self found).2 member⟩
    obtain isPending | ⟨keeper, isKept⟩ := stock
    · exact mine (.inl isPending)
    · by_cases here : keeper = id
      · subst here
        exact mine (.inr ((keeps_iff found).1 isKept))
      · exact .inr ⟨keeper, (keeps_recording_of_ne here).2 isKept⟩
  · have fits := placed.fits effect task drives
    have governs := (tidy.driven.steers effect task drives).governs
    cases task with
    | branches subject target anchor =>
      obtain ⟨node, foundSubject, mounted, _⟩ := governs
      exact move fits (.inl ⟨_, foundSubject, mounted⟩)
    | items subject target =>
      obtain ⟨list, foundSubject, hangs⟩ := fits
      obtain ⟨again, foundAgain, mounted, _⟩ := governs
      cases foundSubject.symm.trans foundAgain
      have moved := move hangs (mounted.imp (fun mounted => ⟨_, foundSubject, mounted⟩) .inl)
      by_cases here : subject = id
      · subst here
        cases found.symm.trans foundSubject
        obtain ⟨later, rfl, same | idle⟩ := anchored list rfl
        · exact ⟨later, recording_self found, same ▸ moved⟩
        · exact absurd drives (idle effect target)
      · exact ⟨list, (recording_of_ne here).trans foundSubject, moved⟩
    | text subject accessor =>
      obtain ⟨node, foundSubject, shown⟩ := governs
      obtain ⟨target, anchor, hangs⟩ := fits
      exact ⟨target, anchor, move hangs (.inl ⟨_, foundSubject, shown⟩)⟩
    | property | classes => exact fits
    | host => trivial

/-- A busy node gets another record, which may keep other effects. -/
theorem Tidy.record {old new : Node (Code Memory)} {pending : Disposable → Prop} (tidy : Tidy scene machine) (found : machine.nodes[id]? = some old)
    (upright : Upright (recording machine id new)) (busy : scene.Busy id) (shift : scene.opened id ∨ new.isOn = old.isOn) (distinct : new.kids.Nodup)
    (unclaimed : ∀ kid ∈ new.kids, kid ∈ old.kids ∨ (kid ∉ machine.world.roots ∧ ∀ parent, kid ∉ kids machine parent))
    (lone : ∀ kid ∈ new.kids, scene.opened kid → scene.still id)
    (stock : ∀ disposable, pending disposable ∨ disposable ∈ new.disposables ↔ scene.pending disposable ∨ disposable ∈ old.disposables)
    (loose : ∀ effect, pending (.effect effect) → .effect effect ∉ new.disposables)
    (freed : ∀ effect, pending (.effect effect) → .effect effect ∈ old.disposables → scene.opened id)
    (bound : ∀ effect task subject, Drives machine.graph effect task → task.subject? = some subject → scene.pending (.effect effect) →
      .effect effect ∈ new.disposables → subject = id)
    (governs : ∀ effect task, Drives machine.graph effect task → task.subject? = some id → Governs scene (recording machine id new) effect task)
    (rehangs : ∀ stead, scene.stead = some stead → Rehangs scene stead machine id old new) :
    Tidy { scene with pending } (recording machine id new) := by
  have arranged := tidy.arranged
  have kids_cases {parent kid : NodeId} (member : kid ∈ kids (recording machine id new) parent) :
      kid ∈ kids machine parent ∨ (parent = id ∧ kid ∉ machine.world.roots ∧ ∀ parent, kid ∉ kids machine parent) := by
    by_cases here : parent = id
    · subst here
      rw [kids_recording_self found] at member
      exact (unclaimed kid member).imp (mem_kids found).2 fun rest => ⟨rfl, rest⟩
    · exact .inl (kids_recording_of_ne here ▸ member)
  have on {parent kid : NodeId} (rests : ¬ scene.still parent) (member : kid ∈ kids machine parent) : On (recording machine id new) kid ↔ On machine kid := by
    by_cases here : kid = id
    · subst here
      obtain isOpened | same := shift
      · exact absurd (arranged.upward kid isOpened parent member) rests
      · exact on_recording found same kid
    · exact on_recording_of_ne here
  have stocks (effect : Nat) : (pending (.effect effect) ∨ ∃ other, Keeps (recording machine id new) other (.effect effect)) ↔ Stock scene machine effect := by
    constructor
    · rintro (isPending | ⟨other, isKept⟩)
      · exact ((stock (.effect effect)).1 (.inl isPending)).imp_right fun member => ⟨id, (keeps_iff found).2 member⟩
      · by_cases here : other = id
        · subst here
          exact ((stock (.effect effect)).1 (.inr ((keeps_recording_self found).1 isKept))).imp_right fun member => ⟨other, (keeps_iff found).2 member⟩
        · exact .inr ⟨other, (keeps_recording_of_ne here).1 isKept⟩
    · have mine (either : scene.pending (.effect effect) ∨ .effect effect ∈ old.disposables) :
          pending (.effect effect) ∨ ∃ other, Keeps (recording machine id new) other (.effect effect) :=
        ((stock (.effect effect)).2 either).imp_right fun member => ⟨id, (keeps_recording_self found).2 member⟩
      rintro (isPending | ⟨other, isKept⟩)
      · exact mine (.inl isPending)
      · by_cases here : other = id
        · subst here
          exact mine (.inr ((keeps_iff found).1 isKept))
        · exact .inr ⟨other, (keeps_recording_of_ne here).2 isKept⟩
  /- What a record keeps now was kept by it, or was pending. -/
  have keeps_cases {effect : Nat} {other : NodeId} (isKept : Keeps (recording machine id new) other (.effect effect)) :
      Keeps machine other (.effect effect) ∨ (other = id ∧ scene.pending (.effect effect)) := by
    by_cases here : other = id
    · subst here
      exact ((stock (.effect effect)).1 (.inr ((keeps_recording_self found).1 isKept))).symm.imp (keeps_iff found).2 fun isPending => ⟨rfl, isPending⟩
    · exact .inl ((keeps_recording_of_ne here).1 isKept)
  refine ⟨upright, ⟨?_, fun parent => ?_, fun root isRoot => ?_, fun kid isBusy => ?_, fun kid isOpened parent member => ?_, fun kid node foundKid rests => ?_⟩,
    ⟨?_, ?_, fun effect isStock => tidy.stocked.tame effect ((stocks effect).1 isStock), tidy.stocked.scripts⟩, ⟨fun effect task drives => ⟨?_, ?_, ?_⟩, tidy.driven.sole⟩,
    fun stead here => (tidy.placed stead here).record tidy found busy (rehangs stead here) fun subscription => (stock (.subscription subscription)).2⟩
  · intro parent rival kid member again
    obtain below | ⟨rfl, _, spare⟩ := kids_cases member
    · obtain belowToo | ⟨rfl, _, spare⟩ := kids_cases again
      · exact arranged.unique parent rival kid below belowToo
      · exact absurd below (spare parent)
    · obtain belowToo | ⟨rfl, _⟩ := kids_cases again
      · exact absurd belowToo (spare rival)
      · rfl
  · by_cases here : parent = id
    · subst here
      rw [kids_recording_self found]
      exact distinct
    · rw [kids_recording_of_ne here]
      exact arranged.distinct parent
  · obtain ⟨there, spare⟩ := arranged.roots root isRoot
    refine ⟨size_recording.symm ▸ there, fun parent member => ?_⟩
    obtain below | ⟨_, never, _⟩ := kids_cases member
    · exact spare parent below
    · exact never isRoot
  · rw [size_recording]
    exact arranged.inside kid isBusy
  · by_cases here : parent = id
    · subst here
      rw [kids_recording_self found] at member
      exact lone kid member isOpened
    · exact arranged.upward kid isOpened parent (kids_recording_of_ne here ▸ member)
  · have here : kid ≠ id := by
      rintro rfl
      exact rests busy
    rw [recording_of_ne here] at foundKid
    refine (arranged.settled kid node foundKid rests).of_on (fun child member => on (fun isStill => rests (.inr isStill)) ((mem_kids foundKid).2 member))
      (fun effect isKept => (keeps_recording_of_ne here).2 isKept) rfl
  · intro first second effect isKept again
    obtain old | ⟨rfl, isPending⟩ := keeps_cases isKept
    · obtain oldToo | ⟨rfl, isPending⟩ := keeps_cases again
      · exact tidy.stocked.apart first second effect old oldToo
      · exact absurd old (tidy.stocked.loose effect isPending first)
    · obtain oldToo | ⟨rfl, _⟩ := keeps_cases again
      · exact absurd oldToo (tidy.stocked.loose effect isPending second)
      · rfl
  · intro effect isPending kid isKept
    by_cases here : kid = id
    · subst here
      exact loose effect isPending ((keeps_recording_self found).1 isKept)
    · rw [keeps_recording_of_ne here] at isKept
      obtain wasPending | member := (stock (.effect effect)).1 (.inl isPending)
      · exact tidy.stocked.loose effect wasPending kid isKept
      · exact here (tidy.stocked.apart kid id effect isKept ((keeps_iff found).2 member))
  · have mine (either : scene.pending (.effect effect) ∨ .effect effect ∈ old.disposables)
        (ifPending : pending (.effect effect) → ∀ subject, task.subject? = some subject → scene.opened subject)
        (ifKept : .effect effect ∈ new.disposables → ∀ subject, task.subject? = some subject → subject = id) :
        (pending (.effect effect) ∧ ∀ subject, task.subject? = some subject → scene.opened subject) ∨
          ∃ other, Keeps (recording machine id new) other (.effect effect) ∧ ∀ subject, task.subject? = some subject → subject = other := by
      obtain isPending | member := (stock (.effect effect)).2 either
      · exact .inl ⟨isPending, ifPending isPending⟩
      · exact .inr ⟨id, (keeps_recording_self found).2 member, ifKept member⟩
    obtain ⟨isPending, subjects⟩ | ⟨keeper, isKept, subjects⟩ := (tidy.driven.steers effect task drives).kept
    · exact mine (.inl isPending) (fun _ => subjects) fun member subject isSubject => bound effect task subject drives isSubject isPending member
    · by_cases here : keeper = id
      · subst here
        have member := (keeps_iff found).1 isKept
        exact mine (.inr member) (fun isPending subject isSubject => (subjects subject isSubject).symm ▸ freed effect isPending member) fun _ => subjects
      · exact .inr ⟨keeper, (keeps_recording_of_ne here).2 isKept, subjects⟩
  · exact (tidy.driven.steers effect task drives).paused
  · have steers := tidy.driven.steers effect task drives
    by_cases here : task.subject? = some id
    · exact (governs effect task drives here).rescene fun _ _ => .inl
    · refine (steers.governs.rescene fun _ _ => .inl).recording here fun subject isSubject kid member => on (steers.paused subject isSubject) member

/-- What is busy belongs where it did if what is below the node puts nothing elsewhere, or rests. -/
theorem Hangs.record {old new : Node (Code Memory)} {target : Handle} {anchor : Anchor} {other : NodeId} (hangs : Hangs scene machine other target anchor)
    (found : machine.nodes[id]? = some old) (isBusy : scene.Busy other)
    (links : (∀ target anchor kid home place, old.Puts id target anchor kid home place → new.Puts id target anchor kid home place) ∨
      ∀ kid ∈ kids machine id, Clear scene machine kid) : Hangs scene (recording machine id new) other target anchor := by
  obtain puts | clear := links
  · refine hangs.carry rfl (fun parent node foundParent target anchor kid home place isPut above => ?_) fun holder kid key guarded _ _ above => .ward above guarded
    by_cases here : parent = id
    · subst here
      cases found.symm.trans foundParent
      exact .kid above (recording_self found) (puts _ _ _ _ _ isPut)
    · exact .kid above ((recording_of_ne here).trans foundParent) isPut
  · have either : Hangs scene (recording machine id new) other target anchor ∨ ∃ top ∈ kids machine id, Below machine top other :=
      hangs.avoid rfl (fun parent node foundParent apart _ _ _ _ _ isPut above => .kid above ((recording_of_ne apart).trans foundParent) isPut)
        (fun _ _ _ guarded => guarded) clear
    obtain moved | ⟨top, isTop, below⟩ := either
    · exact moved
    · exact absurd isBusy (clear top isTop other below)

/-- What a step under way has left behind when it has written a record. -/
theorem Frame.record {old new : Node (Code Memory)} (frame : Frame scene about start machine) (found : machine.nodes[id]? = some old)
    (grows : Grows start (recording machine id new)) (busy : scene.Busy id → new.mold = old.mold) (rests : ¬ scene.still id)
    (shift : about id ∨ new.isOn = old.isOn)
    (stock : ∀ effect, .effect effect ∈ new.disposables → .effect effect ∈ old.disposables ∨ scene.pending (.effect effect) ∨ start.graph.vertices.size ≤ effect)
    (links : (∀ target anchor kid home place, old.Puts id target anchor kid home place → new.Puts id target anchor kid home place) ∨
      ∀ kid ∈ kids machine id, Clear scene machine kid) : Frame scene about start (recording machine id new) := by
  refine ⟨frame.steady, grows, fun other isBusy => ?_, fun other isStill => ?_, fun other inside apart waits => ?_, frame.spared, frame.roots, frame.effects,
    fun other effect isKept => ?_, fun other target anchor isBusy hangs => ?_, frame.lingers⟩
  · refine Eq.trans ?_ (frame.busy other isBusy)
    by_cases here : other = id
    · subst here
      rw [recording_self found, found, Option.map_some, Option.map_some, busy isBusy]
    · rw [recording_of_ne here]
  · have here : other ≠ id := by
      rintro rfl
      exact rests isStill
    rw [recording_of_ne here]
    exact frame.still other isStill
  · refine Iff.trans ?_ (frame.loose other inside apart waits)
    by_cases here : other = id
    · subst here
      exact on_recording found (shift.resolve_left apart) other
    · exact on_recording_of_ne here
  · by_cases here : other = id
    · subst here
      obtain member | isPending | new := stock effect ((keeps_recording_self found).1 isKept)
      · exact frame.stock other effect ((keeps_iff found).2 member)
      · exact .inl isPending
      · exact .inr (.inr new)
    · exact frame.stock other effect ((keeps_recording_of_ne here).1 isKept)
  · exact (frame.hung other target anchor isBusy hangs).record found isBusy links

end ReactiveMarkup.Rendering
