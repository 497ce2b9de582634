import ReactiveMarkup.Proofs.ConditionalRecovery
import ReactiveMarkup.Proofs.DocumentHistory

/-! Where mounted nodes stand. A tree is mounted at one place of a document, and every node of it that is mounted
belongs at a place that follows from what is above it. The handles that its nodes have made stand there, and nothing
else in the document is touched. -/

namespace ReactiveMarkup

section

variable {Code : Type}

/-- Whether a node is mounted. -/
def Node.isOn : Node Code → Bool
  | .element node => node.handle.isSome
  | .text node => node.handle.isSome
  | .fragment node => node.mounted
  | .conditional node => node.mounted
  | .list node => node.mounted
  | .component node => node.mounted

/-- What is to be taken back when a node is unmounted. -/
def Node.disposables : Node Code → List Disposable
  | .element node => node.disposables
  | .text node => node.disposables
  | .fragment _ => []
  | .conditional node => node.disposables
  | .list node => node.disposables
  | .component _ => []

/-- A node without what the passes of its effect change. -/
def Node.mold : Node Code → Node Code
  | .conditional node => .conditional { node with selected := none, active := none }
  | .list node => .list { node with keys := [], entries := [], emptyMounted := false }
  | .element node => .element node
  | .text node => .text { node with handle := none }
  | .fragment node => .fragment node
  | .component node => .component node

/-- A node that holds nothing but what it was made of. The place of a list may be one of earlier. -/
def Node.Bare : Node Code → Prop
  | .element node => node.disposables = []
  | .text node => node.disposables = []
  | .fragment _ => True
  | .conditional node => node.selected = none ∧ node.active = none ∧ node.disposables = []
  | .list node => node.keys = [] ∧ node.entries = [] ∧ node.emptyMounted = false ∧ node.disposables = []
  | .component node => node.child = none

theorem Node.disposables_eq_of_mold {first second : Node Code} (same : first.mold = second.mold) :
    first.disposables = second.disposables := by
  cases first <;> cases second <;> simp_all [mold, disposables]

theorem Node.Bare.disposables {node : Node Code} (bare : node.Bare) : node.disposables = [] := by
  cases node with
  | element => exact bare
  | text => exact bare
  | fragment => rfl
  | conditional => exact bare.2.2
  | list => exact bare.2.2.2
  | component => rfl

/-- The handle that a node has made. -/
def Node.handle? : Node Code → Option Handle
  | .element node => node.handle
  | .text node => node.handle
  | .fragment _ | .conditional _ | .list _ | .component _ => none

/-- The place behind some nodes, the last of them first. -/
def Anchor.behind (anchor : Anchor) (nodes : List NodeId) : Anchor := nodes.foldl (fun anchor node => .afterNode node anchor) anchor

/-- A node that belongs at a place of a target puts what is right below it at another. -/
def Node.Puts (id : NodeId) (target : Handle) (anchor : Anchor) (kid : NodeId) (home : Handle) (place : Anchor) : Node Code → Prop
  | .element node => kid ∈ node.child ∧ node.handle = some home ∧ place = .front
  | .text _ => False
  | .fragment node => ∃ front back, node.children = front ++ kid :: back ∧ home = target ∧ place = anchor.behind front
  | .conditional node => kid ∈ (Node.conditional node).kids ∧ home = target ∧ place = anchor
  | .list node => home = target ∧ ((kid ∈ node.empty ∧ place = anchor) ∨ ∃ entry ∈ node.entries, entry.2.node = kid ∧ place = .item id entry.1)
  | .component node => kid ∈ node.child ∧ home = target ∧ place = anchor

/-- Whether the body of an effect belongs to a node. -/
def Task.Renders : Task Code → Prop
  | .host _ => False
  | .property _ _ _ | .classes _ _ | .text _ _ | .branches _ _ _ | .items _ _ => True

end

namespace Rendering

open ReactiveMarkup.Graph ReactiveMarkup.Machine

variable {Memory : Type}

abbrev Web (Memory : Type) := Graph (Code Memory) (Task (Code Memory))

/-- Whether a node is mounted. -/
def On (machine : Stage Memory) (id : NodeId) : Prop := ∃ node, machine.nodes[id]? = some node ∧ node.isOn = true

/-- Whether a node takes something back when it is unmounted. -/
def Keeps (machine : Stage Memory) (id : NodeId) (disposable : Disposable) : Prop :=
  ∃ node, machine.nodes[id]? = some node ∧ disposable ∈ node.disposables

/-- A live effect of a node that does not run. -/
def Drives (graph : Web Memory) (effect : Nat) (task : Task (Code Memory)) : Prop :=
  ∃ found, graph.content? effect = some (.effect found) ∧ found.disposed = false ∧ found.body = some task ∧ task.Renders

/-- What a test gives now to an effect that reads no cells but its sources. -/
def Minded (graph : Web Memory) (effect : Nat) (test : Accessor (Code Memory)) (value : Value) : Prop :=
  ∃ query, test = .host (.query query) ∧ query.Reads graph (· ∈ graph.sources effect) value

/-- A place in a document at which a tree is mounted, and what there is in the document before: the number of handles,
the number of the next listener, the children of the target and the operations. -/
structure Stead where
  root : NodeId
  target : Handle
  place : Anchor
  base : Handle
  listeners : Nat
  children : List Handle
  past : List Operation

/-- The nodes that are being mounted or unmounted, those of them and of the others whose effects do not run before
the step under way is over, and what has been set up but is not kept by a node. Some nodes are on their way into a
list or a component or out of it, which is busy with that. -/
structure Scene where
  opened : NodeId → Prop
  still : NodeId → Prop
  pending : Disposable → Prop
  wards : NodeId → NodeId → Option String → Prop
  guards : ∀ holder kid key, wards holder kid key → still holder
  stead : Option Stead

namespace Scene

/-- No step is under way. -/
def resting (stead : Option Stead) : Scene :=
  { opened := fun _ => False, still := fun _ => False, pending := fun _ => False, wards := fun _ _ _ => False, guards := fun _ _ _ => False.elim, stead }

/-- No step is under way, and trees may stand anywhere. -/
abbrev empty : Scene := resting none

def Busy (scene : Scene) (id : NodeId) : Prop := scene.opened id ∨ scene.still id

/-- A node that begins to be mounted or unmounted. -/
def opening (scene : Scene) (id : NodeId) : Scene :=
  { scene with
    opened := fun other => scene.opened other ∨ other = id
    still := fun other => scene.still other ∨ other = id
    guards := fun holder kid key guarded => .inl (scene.guards holder kid key guarded) }

/-- A node whose effect runs. -/
def pausing (scene : Scene) (nodes : NodeId → Prop) : Scene :=
  { scene with
    still := fun other => scene.still other ∨ nodes other
    guards := fun holder kid key guarded => .inl (scene.guards holder kid key guarded) }

/-- A node that is not mounted yet but follows cells. -/
def following (scene : Scene) (id : NodeId) : Scene :=
  { scene with
    opened := fun other => scene.opened other ∨ other = id }

def holding (scene : Scene) (disposables : Disposable → Prop) : Scene :=
  { scene with pending := fun disposable => scene.pending disposable ∨ disposables disposable }

/-- Some nodes on their way into what is above them or out of it. -/
def guarding (scene : Scene) {holder : NodeId} (waits : scene.still holder) (nodes : NodeId → Option String → Prop) : Scene :=
  { scene with
    wards := fun other kid key => scene.wards other kid key ∨ (other = holder ∧ nodes kid key)
    guards := fun other ward again guarded => by
      obtain guarded | ⟨rfl, _⟩ := guarded
      · exact scene.guards other ward again guarded
      · exact waits }

end Scene

variable {scene other : Scene} {stead : Stead} {before after machine : Stage Memory} {id : NodeId}

/-- Whether a handle is the one that a node has made. -/
def Owns (machine : Stage Memory) (id : NodeId) (handle : Handle) : Prop :=
  ∃ node, machine.nodes[id]? = some node ∧ node.handle? = some handle

/-- Where a node belongs: at a place of a target. It follows from where the node above it belongs. Without a place for
the whole tree it may be anywhere. -/
inductive Hangs (scene : Scene) (machine : Stage Memory) : NodeId → Handle → Anchor → Prop where
  | adrift {id : NodeId} {target : Handle} {anchor : Anchor} (free : scene.stead = none) : Hangs scene machine id target anchor
  | root {stead : Stead} (here : scene.stead = some stead) : Hangs scene machine stead.root stead.target stead.place
  | kid {parent kid : NodeId} {node : Node (Code Memory)} {target home : Handle} {anchor place : Anchor} (above : Hangs scene machine parent target anchor)
      (found : machine.nodes[parent]? = some node) (puts : node.Puts parent target anchor kid home place) : Hangs scene machine kid home place
  | ward {holder kid : NodeId} {key : Option String} {target : Handle} {anchor : Anchor} (above : Hangs scene machine holder target anchor)
      (guarded : scene.wards holder kid key) : Hangs scene machine kid target (key.elim anchor (.item holder))

/-- Handles without repetition that some nodes and those below them have made, all of which belong in one target. -/
structure Bears (scene : Scene) (machine : Stage Memory) (target : Handle) (nodes : List NodeId) (handles : List Handle) : Prop where
  distinct : handles.Nodup
  owned : ∀ handle ∈ handles, ∃ top ∈ nodes, ∃ owner anchor, Below machine top owner ∧ Owns machine owner handle ∧ Hangs scene machine owner target anchor

/-- A node on its way: if anything is above it then it is what waits for it, and puts it where it belongs. -/
structure Warded (scene : Scene) (machine : Stage Memory) (holder kid : NodeId) (key : Option String) : Prop where
  known : kid < machine.nodes.size
  rootless : kid ∉ machine.world.roots
  above : ∀ parent, kid ∈ kids machine parent → parent = holder
  place : ∀ node target anchor home place, machine.nodes[holder]? = some node → node.Puts holder target anchor kid home place →
    home = target ∧ place = key.elim anchor (.item holder)
  sole : ∀ other again, scene.wards other kid again → other = holder ∧ again = key

/-- What the effect of a node is about is where the node belongs. -/
def Fits (scene : Scene) (machine : Stage Memory) : Task (Code Memory) → Prop
  | .branches id target anchor => Hangs scene machine id target anchor
  | .items id target => ∃ list, machine.nodes[id]? = some (.list list) ∧ Hangs scene machine id target list.anchor
  | .property _ _ handle | .classes _ handle => machine.document.Known handle
  | .text id _ => ∃ target anchor, Hangs scene machine id target anchor
  | .host _ => True

/-- A tree in its place. The handles that its nodes have made stand where the nodes belong, other handles are as they
were, and its listeners are kept. -/
structure Placed (scene : Scene) (stead : Stead) (machine : Stage Memory) : Prop where
  forest : machine.document.Forest
  home : stead.target < stead.base
  base : stead.base ≤ machine.document.items.size
  rooted : stead.root ∈ machine.world.roots
  wards : ∀ holder kid key, scene.wards holder kid key → Warded scene machine holder kid key
  hung : ∀ id, On machine id → ∃ target anchor, Hangs scene machine id target anchor
  /-- A handle is made after the one in which it belongs. -/
  reach : ∀ id handle, Owns machine id handle → ∃ target anchor, Hangs scene machine id target anchor ∧ target < handle
  owned : ∀ id handle, Owns machine id handle → stead.base ≤ handle ∧ machine.document.Known handle
  sole : ∀ first second handle, Owns machine first handle → Owns machine second handle → first = second
  attached : ∀ handle parent, stead.base ≤ handle → machine.document.ChildOf handle parent → ∃ id, Owns machine id handle
  stands : ∀ id handle target, Owns machine id handle → machine.document.ChildOf handle target → ∃ anchor, Hangs scene machine id target anchor
  berthed : ∀ id handle, Owns machine id handle → ¬ scene.Busy id → ∃ target, machine.document.ChildOf handle target
  /-- Parents come before their children. -/
  lower : ∀ handle parent, stead.base ≤ handle → machine.document.ChildOf handle parent → parent < handle
  foreign : ∀ handle parent, handle < stead.base → machine.document.ChildOf handle parent → parent < stead.base
  children : (machine.document.children stead.target).filter (· < stead.base) = stead.children
  listening : ∀ subscription ∈ machine.document.subscriptions, stead.listeners ≤ subscription.id →
    scene.pending (.subscription subscription.id) ∨ ∃ id, Keeps machine id (.subscription subscription.id)
  fits : ∀ effect task, Drives machine.graph effect task → Fits scene machine task
  told : machine.document.Told stead.base stead.past fun handle => ∃ id, Owns machine id handle

theorem Owns.on {handle : Handle} (owns : Owns machine id handle) : On machine id := by
  obtain ⟨node, found, isHandle⟩ := owns
  refine ⟨node, found, ?_⟩
  cases node with
  | element node => exact Option.isSome_iff_exists.2 ⟨handle, isHandle⟩
  | text node => exact Option.isSome_iff_exists.2 ⟨handle, isHandle⟩
  | fragment | conditional | list | component => cases isHandle

theorem owns_iff {node : Node (Code Memory)} (found : machine.nodes[id]? = some node) {handle : Handle} : Owns machine id handle ↔ node.handle? = some handle := by
  simp [Owns, found]

/-- What a node puts anywhere is right below it. -/
theorem Puts.mem_kids {Code : Type} {node : Node Code} {parent kid : NodeId} {target home : Handle} {anchor place : Anchor}
    (puts : node.Puts parent target anchor kid home place) : kid ∈ node.kids := by
  cases node with
  | element node => exact Option.mem_toList.2 puts.1
  | text => exact puts.elim
  | fragment node =>
    obtain ⟨front, back, split, _⟩ := puts
    rw [show (Node.fragment node : Node Code).kids = node.children from rfl, split]
    exact List.mem_append_right _ (List.mem_cons_self ..)
  | conditional node => exact puts.1
  | list node =>
    obtain ⟨_, ⟨isEmpty, _⟩ | ⟨entry, member, rfl, _⟩⟩ := puts
    · exact List.mem_append_right _ (Option.mem_toList.2 isEmpty)
    · exact List.mem_append_left _ (List.mem_map_of_mem member)
  | component node => exact Option.mem_toList.2 puts.1

/-- Places stay what they were if nodes put what is below them where they did. -/
theorem Hangs.carry {target : Handle} {anchor : Anchor} (hangs : Hangs scene before id target anchor) (stead : other.stead = scene.stead)
    (puts : ∀ parent node, before.nodes[parent]? = some node → ∀ target anchor kid home place, node.Puts parent target anchor kid home place →
      Hangs other after parent target anchor → Hangs other after kid home place)
    (wards : ∀ holder kid key, scene.wards holder kid key → ∀ target anchor, Hangs other after holder target anchor →
      Hangs other after kid target (key.elim anchor (.item holder))) : Hangs other after id target anchor := by
  induction hangs with
  | adrift free => exact .adrift (stead.trans free)
  | root here => exact .root (stead.trans here)
  | kid _ found isPut ih => exact puts _ _ found _ _ _ _ _ isPut ih
  | ward _ guarded ih => exact wards _ _ _ guarded _ _ ih

/-- Places depend on nodes only. -/
theorem Hangs.congr {target : Handle} {anchor : Anchor} (hangs : Hangs scene before id target anchor) (nodes : after.nodes = before.nodes)
    (stead : other.stead = scene.stead) (wards : ∀ holder kid key, scene.wards holder kid key → other.wards holder kid key) :
    Hangs other after id target anchor :=
  hangs.carry stead (fun _ _ found _ _ _ _ _ isPut above => .kid above (nodes ▸ found) isPut)
    fun _ _ _ guarded _ _ above => .ward above (wards _ _ _ guarded)

/-- The document stays the same while nodes change: those that were mounted belong somewhere still, one of them may have
come to own a handle that stands nowhere, and what others owned before has been taken away for good. -/
theorem Placed.shift (placed : Placed scene stead before) (id : NodeId) (document : after.document = before.document) (roots : after.world.roots = before.world.roots)
    (wards : ∀ holder kid key, other.wards holder kid key → Warded other after holder kid key)
    (hangs : ∀ id target anchor, On after id → Hangs scene before id target anchor → Hangs other after id target anchor)
    (hung : ∀ id, On after id → On before id ∨ ∃ target anchor, Hangs other after id target anchor)
    (gained : ∀ owner handle, Owns after owner handle → Owns before owner handle ∨
      (owner = id ∧ stead.base ≤ handle ∧ before.document.Known handle ∧ (∀ owner, ¬ Owns before owner handle) ∧ before.document.parent? handle = none ∧
        ∃ target anchor, Hangs other after id target anchor ∧ target < handle))
    (lost : ∀ owner handle, Owns before owner handle → Owns after owner handle ∨
      (before.document.parent? handle = none ∧ Document.Since stead.past (Operation.Retired handle) before.document))
    (berthed : ∀ owner handle, Owns after owner handle → ¬ other.Busy owner → ¬ scene.Busy owner ∧ Owns before owner handle ∨ ∃ target, before.document.ChildOf handle target)
    (kept : ∀ subscription, scene.pending (.subscription subscription) ∨ (∃ id, Keeps before id (.subscription subscription)) →
      other.pending (.subscription subscription) ∨ ∃ id, Keeps after id (.subscription subscription))
    (fits : ∀ effect task, Drives after.graph effect task → Fits other after task) : Placed other stead after := by
  refine ⟨document ▸ placed.forest, placed.home, document ▸ placed.base, roots ▸ placed.rooted, wards, fun id on => ?_, fun owner handle owns => ?_, fun id handle owns => ?_,
    fun first second handle owns again => ?_, fun handle parent inside child => ?_, fun owner handle target owns child => ?_, fun owner handle owns rests => ?_,
    fun handle parent inside child => placed.lower handle parent inside (document ▸ child), fun handle parent outside child => placed.foreign handle parent outside (document ▸ child),
    document ▸ placed.children, fun subscription member new => kept subscription.id (placed.listening subscription (document ▸ member) new), fits, ?_⟩
  · obtain was | hung := hung id on
    · obtain ⟨target, anchor, hung⟩ := placed.hung id was
      exact ⟨target, anchor, hangs id target anchor on hung⟩
    · exact hung
  · obtain was | ⟨rfl, _, _, _, _, reach⟩ := gained owner handle owns
    · obtain ⟨target, anchor, hung, less⟩ := placed.reach owner handle was
      exact ⟨target, anchor, hangs owner target anchor owns.on hung, less⟩
    · exact reach
  · obtain was | ⟨_, inside, known, _⟩ := gained id handle owns
    · exact document ▸ placed.owned id handle was
    · exact ⟨inside, document ▸ known⟩
  · obtain was | ⟨rfl, _, _, unused, _⟩ := gained first handle owns
    · obtain wasToo | ⟨_, _, _, unused, _⟩ := gained second handle again
      · exact placed.sole first second handle was wasToo
      · exact absurd was (unused first)
    · obtain was | ⟨same, _⟩ := gained second handle again
      · exact absurd was (unused second)
      · exact same.symm
  · obtain ⟨owner, owns⟩ := placed.attached handle parent inside (document ▸ child)
    obtain owns | ⟨none, _⟩ := lost owner handle owns
    · exact ⟨owner, owns⟩
    · cases none.symm.trans (document ▸ child : before.document.parent? handle = some parent)
  · rw [document] at child
    obtain was | ⟨_, _, _, _, none, _⟩ := gained owner handle owns
    · obtain ⟨anchor, hung⟩ := placed.stands owner handle target was child
      exact ⟨anchor, hangs owner target anchor owns.on hung⟩
    · cases none.symm.trans child
  · rw [document]
    obtain ⟨restsToo, was⟩ | stands := berthed owner handle owns rests
    · exact placed.berthed owner handle was restsToo
    · exact stands
  · rw [document]
    refine placed.told.reuse fun handle _ ⟨owner, owns⟩ unused => ?_
    obtain still | ⟨_, retired⟩ := lost owner handle owns
    · exact absurd ⟨owner, still⟩ unused
    · exact retired

theorem Fits.congr {task : Task (Code Memory)} (fits : Fits scene before task) (nodes : after.nodes = before.nodes)
    (document : before.document.items.size ≤ after.document.items.size) (stead : other.stead = scene.stead)
    (wards : ∀ holder kid key, scene.wards holder kid key → other.wards holder kid key) : Fits other after task := by
  cases task with
  | branches => exact Hangs.congr fits nodes stead wards
  | items =>
    obtain ⟨list, found, hangs⟩ := fits
    exact ⟨list, nodes ▸ found, hangs.congr nodes stead wards⟩
  | property | classes => exact Nat.lt_of_lt_of_le fits document
  | text =>
    obtain ⟨target, anchor, hangs⟩ := fits
    exact ⟨target, anchor, hangs.congr nodes stead wards⟩
  | host => trivial

theorem Warded.congr {holder kid : NodeId} {key : Option String} (warded : Warded scene before holder kid key) (nodes : after.nodes = before.nodes)
    (roots : after.world.roots = before.world.roots) : Warded scene after holder kid key := by
  have same : kids after = kids before := funext fun id => by rw [kids, nodes, kids]
  obtain ⟨known, rootless, above, place, sole⟩ := warded
  exact ⟨nodes ▸ known, roots ▸ rootless, same ▸ above, fun node target anchor home place' found => place node target anchor home place' (nodes ▸ found), sole⟩

/-- Other steps are under way at the same places. -/
theorem Placed.rescene (placed : Placed scene stead machine) (same : other.stead = scene.stead)
    (wards : ∀ holder kid key, other.wards holder kid key ↔ scene.wards holder kid key)
    (berthed : ∀ id handle, Owns machine id handle → ¬ other.Busy id → scene.Busy id → ∃ target, machine.document.ChildOf handle target)
    (listening : ∀ subscription ∈ machine.document.subscriptions, scene.pending (.subscription subscription.id) →
      other.pending (.subscription subscription.id) ∨ ∃ id, Keeps machine id (.subscription subscription.id)) : Placed other stead machine := by
  have hangs {id : NodeId} {target : Handle} {anchor : Anchor} (hangs : Hangs scene machine id target anchor) : Hangs other machine id target anchor :=
    hangs.congr rfl same fun holder kid key => (wards holder kid key).2
  refine ⟨placed.forest, placed.home, placed.base, placed.rooted, fun holder kid key guarded => ?_, fun id on => ?_, fun id handle owns => ?_, placed.owned, placed.sole, placed.attached,
    fun id handle target owns child => ?_, fun id handle owns rests => ?_, placed.lower, placed.foreign, placed.children, fun subscription member new => ?_,
    fun effect task drives => (placed.fits effect task drives).congr rfl (Nat.le_refl _) same fun holder kid key => (wards holder kid key).2, placed.told⟩
  · obtain ⟨known, rootless, above, place, sole⟩ := placed.wards holder kid key ((wards holder kid key).1 guarded)
    exact ⟨known, rootless, above, place, fun other again guardedToo => sole other again ((wards other kid again).1 guardedToo)⟩
  · obtain ⟨target, anchor, hung⟩ := placed.hung id on
    exact ⟨target, anchor, hangs hung⟩
  · obtain ⟨target, anchor, hung, less⟩ := placed.reach id handle owns
    exact ⟨target, anchor, hangs hung, less⟩
  · obtain ⟨anchor, hung⟩ := placed.stands id handle target owns child
    exact ⟨anchor, hangs hung⟩
  · by_cases busy : scene.Busy id
    · exact berthed id handle owns rests busy
    · exact placed.berthed id handle owns busy
  · obtain isPending | isKept := placed.listening subscription member new
    · exact listening subscription member isPending
    · exact .inr isKept

/-- Places do not depend on the graph. -/
theorem Placed.regraph (placed : Placed scene stead before) (nodes : after.nodes = before.nodes) (document : after.document = before.document)
    (roots : after.world.roots = before.world.roots) (drives : ∀ effect task, Drives after.graph effect task → Drives before.graph effect task ∨ Fits scene after task) :
    Placed scene stead after := by
  have on (id : NodeId) : On after id ↔ On before id := by rw [On, nodes, On]
  have owns (id : NodeId) (handle : Handle) : Owns after id handle ↔ Owns before id handle := by rw [Owns, nodes, Owns]
  refine placed.shift 0 document roots (fun holder kid key guarded => (placed.wards holder kid key guarded).congr nodes roots)
    (fun id target anchor _ hangs => hangs.congr nodes rfl fun _ _ _ guarded => guarded) (fun id isOn => .inl ((on id).1 isOn))
    (fun id handle owned => .inl ((owns id handle).1 owned)) (fun id handle owned => .inl ((owns id handle).2 owned))
    (fun id handle owned rests => .inl ⟨rests, (owns id handle).1 owned⟩) (fun subscription stock => stock.imp_right fun ⟨id, keeps⟩ => ⟨id, ?_⟩)
    fun effect task isDriver => (drives effect task isDriver).elim
      (fun old => (placed.fits effect task old).congr nodes (Nat.le_of_eq (by rw [document])) rfl fun _ _ _ guarded => guarded) fun fits => fits
  rwa [Keeps, nodes]

/-- What an effect is about belongs where the effect says, and if it rests it stands somewhere. -/
def Lodged (scene : Scene) (machine : Stage Memory) (task : Task (Code Memory)) : Prop := ∀ stead, scene.stead = some stead → Fits scene machine task ∧
  ∀ subject handle, task.subject? = some subject → Owns machine subject handle → ¬ scene.Busy subject → ∃ target, machine.document.ChildOf handle target

theorem Lodged.carry {task : Task (Code Memory)} (lodged : Lodged scene before task) (nodes : after.nodes = before.nodes) (document : after.document = before.document)
    (same : other.stead = scene.stead) (wards : ∀ holder kid key, scene.wards holder kid key → other.wards holder kid key)
    (busy : ∀ id, scene.Busy id → other.Busy id) : Lodged other after task := by
  intro stead here
  obtain ⟨fits, stands⟩ := lodged stead (same ▸ here)
  refine ⟨fits.congr nodes (Nat.le_of_eq (by rw [document])) same wards, fun subject handle isSubject owns rests => ?_⟩
  rw [Owns, nodes] at owns
  rw [document]
  exact stands subject handle isSubject owns fun isBusy => rests (busy subject isBusy)

end Rendering

end ReactiveMarkup
