import ReactiveMarkup.Proofs.SceneChanges

/-! The handles of nodes in a scene. There is one place where a node belongs, and handles are put there and taken away
again while those of other nodes stay where they are. -/

namespace ReactiveMarkup.Rendering

open Relation ReactiveMarkup.Step ReactiveMarkup.Graph ReactiveMarkup.Machine ReactiveMarkup.Document

variable {Memory : Type} {about : NodeId → Prop} {scene inner other : Scene} {stead : Stead} {start machine after : Stage Memory} {id kid holder : NodeId}
  {target home : Handle} {anchor place : Anchor} {handles : List Handle} {old : Node (Code Memory)} {document between : Document (Listener (Code Memory))}

/-- What stands before a member of a list without repetition is determined by the member. -/
private theorem front_unique {α : Type} {front others back rest : List α} {member : α} (same : front ++ member :: back = others ++ member :: rest)
    (distinct : (front ++ member :: back).Nodup) : front = others := by
  induction front generalizing others with
  | nil =>
    cases others with
    | nil => rfl
    | cons first others =>
      rw [List.nil_append, List.cons_append, List.cons.injEq] at same
      obtain ⟨rfl, rfl⟩ := same
      exact absurd (List.mem_append_right _ (List.mem_cons_self ..)) (List.nodup_cons.1 distinct).1
  | cons first front ih =>
    cases others with
    | nil =>
      rw [List.nil_append, List.cons_append, List.cons.injEq] at same
      obtain ⟨rfl, _⟩ := same
      exact absurd (List.mem_append_right _ (List.mem_cons_self ..)) (List.nodup_cons.1 distinct).1
    | cons second others =>
      rw [List.cons_append, List.cons_append, List.cons.injEq] at same
      rw [same.1, ih same.2 (List.nodup_cons.1 distinct).2]

theorem distinct_kids (arranged : Arranged scene machine) (found : machine.nodes[id]? = some old) : old.kids.Nodup := by
  have distinct := arranged.distinct id
  rwa [kids, found, Option.elim_some] at distinct

/-- A node puts each of its kids at one place. -/
theorem Puts.unique {Code : Type} {node : Node Code} {parent : NodeId} {again : Handle} {elsewhere : Anchor} (distinct : node.kids.Nodup)
    (first : node.Puts parent target anchor kid home place) (second : node.Puts parent target anchor kid again elsewhere) : again = home ∧ elsewhere = place := by
  cases node with
  | element => exact ⟨Option.some.inj (second.2.1.symm.trans first.2.1), second.2.2.trans first.2.2.symm⟩
  | text => exact first.elim
  | fragment =>
    obtain ⟨front, back, split, rfl, rfl⟩ := first
    obtain ⟨others, rest, splitToo, rfl, rfl⟩ := second
    rw [Node.kids, split] at distinct
    rw [front_unique (split.symm.trans splitToo) distinct]
    exact ⟨rfl, rfl⟩
  | conditional => exact ⟨second.2.1.trans first.2.1.symm, second.2.2.trans first.2.2.symm⟩
  | list node =>
    obtain ⟨ofEntries, _, apart⟩ := List.nodup_append.1 distinct
    refine ⟨second.1.trans first.1.symm, ?_⟩
    obtain ⟨isEmpty, rfl⟩ | ⟨entry, member, rfl, rfl⟩ := first.2
    · obtain ⟨_, rfl⟩ | ⟨other, memberToo, rfl, rfl⟩ := second.2
      · rfl
      · exact absurd rfl (apart _ (List.mem_map_of_mem memberToo) _ (Option.mem_toList.2 isEmpty))
    · obtain ⟨isEmpty, rfl⟩ | ⟨other, memberToo, same, rfl⟩ := second.2
      · exact absurd rfl (apart _ (List.mem_map_of_mem member) _ (Option.mem_toList.2 isEmpty))
      · rw [List.inj_on_of_nodup_map ofEntries memberToo member same]
  | component => exact ⟨second.2.1.trans first.2.1.symm, second.2.2.trans first.2.2.symm⟩

/-- What a place of a node comes from. -/
theorem Hangs.inv (hangs : Hangs scene machine id target anchor) (here : scene.stead = some stead) :
    (id = stead.root ∧ target = stead.target ∧ anchor = stead.place) ∨
      (∃ parent node above spot, Hangs scene machine parent above spot ∧ machine.nodes[parent]? = some node ∧ node.Puts parent above spot id target anchor) ∨
        ∃ holder key spot, Hangs scene machine holder target spot ∧ scene.wards holder id key ∧ anchor = key.elim spot (.item holder) := by
  cases hangs with
  | adrift free => cases here.symm.trans free
  | root isHere =>
    cases here.symm.trans isHere
    exact .inl ⟨rfl, rfl, rfl⟩
  | kid above found puts => exact .inr (.inl ⟨_, _, _, _, above, found, puts⟩)
  | ward above guarded => exact .inr (.inr ⟨_, _, _, above, guarded, rfl⟩)

/-- A node belongs at one place only. -/
theorem Hangs.unique (first : Hangs scene machine id target anchor) (placed : Placed scene stead machine) (arranged : Arranged scene machine)
    (here : scene.stead = some stead) (second : Hangs scene machine id home place) : home = target ∧ place = anchor := by
  have rootless {parent : NodeId} {node : Node (Code Memory)} {above spot : _} {home place : _} (found : machine.nodes[parent]? = some node)
      (puts : node.Puts parent above spot stead.root home place) : False :=
    (arranged.roots _ placed.rooted).2 parent ((mem_kids found).2 (Puts.mem_kids puts))
  induction first generalizing home place with
  | adrift free => cases here.symm.trans free
  | root isHere =>
    cases here.symm.trans isHere
    obtain ⟨_, rfl, rfl⟩ | ⟨parent, node, _, _, _, found, puts⟩ | ⟨holder, key, _, _, guarded, _⟩ := second.inv here
    · exact ⟨rfl, rfl⟩
    · exact (rootless found puts).elim
    · exact absurd placed.rooted (placed.wards holder _ key guarded).rootless
  | @kid parent kid node _ _ _ _ _ found puts ih =>
    obtain ⟨rfl, _, _⟩ | ⟨other, again, _, _, above, foundToo, putsToo⟩ | ⟨holder, key, _, above, guarded, rfl⟩ := second.inv here
    · exact (rootless found puts).elim
    · have same : other = parent := arranged.unique other parent kid ((mem_kids foundToo).2 (Puts.mem_kids putsToo)) ((mem_kids found).2 (Puts.mem_kids puts))
      subst same
      cases found.symm.trans foundToo
      obtain ⟨rfl, rfl⟩ := ih above
      exact Puts.unique (distinct_kids arranged found) puts putsToo
    · have warded := placed.wards holder kid key guarded
      cases warded.above parent ((mem_kids found).2 (Puts.mem_kids puts))
      obtain ⟨rfl, rfl⟩ := ih above
      obtain ⟨rfl, rfl⟩ := warded.place node _ _ _ _ found puts
      exact ⟨rfl, rfl⟩
  | @ward holder kid key _ _ _ guarded ih =>
    have warded := placed.wards holder kid key guarded
    obtain ⟨rfl, _, _⟩ | ⟨parent, node, _, _, above, found, puts⟩ | ⟨other, again, _, above, guardedToo, rfl⟩ := second.inv here
    · exact absurd placed.rooted warded.rootless
    · cases warded.above parent ((mem_kids found).2 (Puts.mem_kids puts))
      obtain ⟨rfl, rfl⟩ := ih above
      exact warded.place node _ _ _ _ found puts
    · obtain ⟨rfl, rfl⟩ := warded.sole other again guardedToo
      obtain ⟨rfl, rfl⟩ := ih above
      exact ⟨rfl, rfl⟩

/-- Nodes belong in the target of the whole tree or in an element above them. -/
theorem Hangs.home_cases (hangs : Hangs scene machine id target anchor) (here : scene.stead = some stead) : target = stead.target ∨ ∃ owner, Owns machine owner target := by
  induction hangs with
  | adrift free => cases here.symm.trans free
  | root isHere =>
    cases here.symm.trans isHere
    exact .inl rfl
  | @kid parent _ node _ _ _ _ _ found puts ih =>
    cases node with
    | element => exact .inr ⟨parent, _, found, puts.2.1⟩
    | text => exact puts.elim
    | fragment =>
      obtain ⟨_, _, _, rfl, _⟩ := puts
      exact ih
    | conditional | component =>
      obtain ⟨_, rfl, _⟩ := puts
      exact ih
    | list =>
      obtain ⟨rfl, _⟩ := puts
      exact ih
  | ward _ _ ih => exact ih

namespace Placed

variable (placed : Placed scene stead machine)

include placed

theorem known_home (here : scene.stead = some stead) (hangs : Hangs scene machine id target anchor) : machine.document.Known target := by
  obtain rfl | ⟨owner, owns⟩ := hangs.home_cases here
  · exact Nat.lt_of_lt_of_le placed.home placed.base
  · exact (placed.owned owner target owns).2

/-- What is above a handle of the tree's nodes is older. -/
theorem le_of_above {handle above : Handle} (path : ReflTransGen machine.document.ChildOf handle above) : stead.base ≤ above → above ≤ handle := by
  induction path using ReflTransGen.head_induction_on with
  | refl => exact fun _ => Nat.le_refl _
  | @head first second child _ ih =>
    intro inside
    obtain outside | insideToo := Nat.lt_or_ge first stead.base
    · exact absurd (Nat.le_trans inside (ih inside)) (Nat.not_le.2 (placed.foreign first second outside child))
    · exact Nat.le_trans (ih inside) (Nat.le_of_lt (placed.lower first second insideToo child))

theorem movable (distinct : handles.Nodup) (known : machine.document.Known target)
    (owned : ∀ handle ∈ handles, ∃ owner, Owns machine owner handle ∧ target < handle) : machine.document.Movable handles target := by
  refine ⟨known, fun handle member => ?_, distinct, fun handle member path => ?_⟩
  · obtain ⟨owner, owns, _⟩ := owned handle member
    exact (placed.owned owner handle owns).2
  · obtain ⟨owner, owns, less⟩ := owned handle member
    exact absurd (placed.le_of_above path (placed.owned owner handle owns).1) (Nat.not_le.2 less)

/-- The document changes, but what stands anywhere stood there or belongs there. -/
theorem redocument (forest : document.Forest) (size : machine.document.items.size ≤ document.items.size)
    (childOf : ∀ handle parent, document.ChildOf handle parent → machine.document.ChildOf handle parent ∨
      (∃ owner anchor, Owns machine owner handle ∧ Hangs scene machine owner parent anchor ∧ parent < handle))
    (stays : ∀ owner handle, Owns machine owner handle → ¬ scene.Busy owner → (∃ parent, machine.document.ChildOf handle parent) → ∃ parent, document.ChildOf handle parent)
    (children : (document.children stead.target).filter (· < stead.base) = (machine.document.children stead.target).filter (· < stead.base))
    (listening : ∀ subscription ∈ document.subscriptions, stead.listeners ≤ subscription.id →
      scene.pending (.subscription subscription.id) ∨ ∃ id, Keeps machine id (.subscription subscription.id))
    (told : Told stead.base stead.past (fun handle => ∃ owner, Owns machine owner handle) machine.document →
      Told stead.base stead.past (fun handle => ∃ owner, Owns machine owner handle) document) :
    Placed scene stead { machine with document } := by
  have hangs {id : NodeId} {target : Handle} {anchor : Anchor} (hangs : Hangs scene machine id target anchor) :
      Hangs scene ({ machine with document } : Stage Memory) id target anchor := hangs.congr rfl rfl fun _ _ _ guarded => guarded
  refine ⟨forest, placed.home, Nat.le_trans placed.base size, placed.rooted, fun holder kid key guarded => (placed.wards holder kid key guarded).congr rfl rfl,
    fun id on => ?_, fun id handle owns => ?_, fun id handle owns => ?_, placed.sole, fun handle parent inside child => ?_, fun id handle target owns child => ?_, fun id handle owns rests => ?_,
    fun handle parent inside child => ?_, fun handle parent outside child => ?_, children.trans placed.children, listening,
    fun effect task drives => (placed.fits effect task drives).congr rfl size rfl fun _ _ _ guarded => guarded, told placed.told⟩
  · obtain ⟨target, anchor, hung⟩ := placed.hung id on
    exact ⟨target, anchor, hangs hung⟩
  · obtain ⟨target, anchor, hung, less⟩ := placed.reach id handle owns
    exact ⟨target, anchor, hangs hung, less⟩
  · exact ⟨(placed.owned id handle owns).1, Nat.lt_of_lt_of_le (placed.owned id handle owns).2 size⟩
  · obtain old | ⟨owner, _, owns, _⟩ := childOf handle parent child
    · exact placed.attached handle parent inside old
    · exact ⟨owner, owns⟩
  · obtain old | ⟨owner, anchor, ownsToo, hung, _⟩ := childOf handle target child
    · obtain ⟨anchor, hung⟩ := placed.stands id handle target owns old
      exact ⟨anchor, hangs hung⟩
    · cases placed.sole id owner handle owns ownsToo
      exact ⟨anchor, hangs hung⟩
  · exact stays id handle owns rests (placed.berthed id handle owns rests)
  · obtain old | ⟨_, _, _, _, less⟩ := childOf handle parent child
    · exact placed.lower handle parent inside old
    · exact less
  · obtain old | ⟨owner, _, owns, _⟩ := childOf handle parent child
    · exact placed.foreign handle parent outside old
    · exact absurd (placed.owned owner handle owns).1 (Nat.not_le.2 outside)

/-- Nothing moves. -/
theorem undisturbed (undisturbed : Undisturbed machine.document document)
    (listening : ∀ subscription ∈ document.subscriptions, stead.listeners ≤ subscription.id →
      scene.pending (.subscription subscription.id) ∨ ∃ id, Keeps machine id (.subscription subscription.id)) : Placed scene stead { machine with document } := by
  have same : document.ChildOf = machine.document.ChildOf := by
    funext handle parent
    rw [ChildOf, ChildOf, undisturbed.parents]
  exact placed.redocument (placed.forest.congr undisturbed.parents undisturbed.children) undisturbed.size (fun _ _ child => .inl (same ▸ child))
    (fun _ _ _ _ stood => same ▸ stood) (by rw [undisturbed.children]) listening fun told => told.undisturbed undisturbed

omit placed in
/-- Without handles of nodes the other children are the same. -/
theorem filter_others {handles : List Handle} (inside : ∀ handle ∈ handles, stead.base ≤ handle) (children : List Handle) :
    (children.filter (· ∉ handles)).filter (· < stead.base) = children.filter (· < stead.base) := by
  rw [List.filter_filter]
  refine List.filter_congr fun handle _ => ?_
  by_cases outside : handle < stead.base
  · have apart : handle ∉ handles := fun member => absurd outside (Nat.not_lt.2 (inside handle member))
    simp [outside, apart]
  · simp [outside]

omit placed in
/-- Handles of nodes are put in among the others. -/
theorem filter_putIn {before after : Document (Listener (Code Memory))} (inside : ∀ handle ∈ handles, stead.base ≤ handle) {spot : Option Handle} (putIn : PutIn before after handles target spot) (parent : Handle) :
    (after.children parent).filter (· < stead.base) = (before.children parent).filter (· < stead.base) := by
  by_cases here : parent = target
  · subst here
    obtain ⟨front, back, split, _, whole⟩ := putIn.block
    have none : handles.filter (· < stead.base) = [] := List.filter_eq_nil_iff.2 fun handle member => by
      simpa using inside handle member
    rw [whole, List.filter_append, List.filter_append, none, List.append_nil, ← List.filter_append, ← split, filter_others inside]
  · rw [putIn.others parent here, filter_others inside]

/-- Handles of nodes that are under way are taken out of a target. -/
theorem take (mine : ∀ handle ∈ handles, ∃ owner, Owns machine owner handle)
    (busy : ∀ handle ∈ handles, ∀ owner, Owns machine owner handle → scene.Busy owner)
    (takenOut : TakenOut machine.document document (handles.filter fun handle => machine.document.parent? handle == some target))
    (history : document.history = .remove handles target :: machine.document.history) (subscriptions : document.subscriptions = machine.document.subscriptions)
    (above : stead.base ≤ target → ∃ owner, Owns machine owner target) : Placed scene stead { machine with document } := by
  have inside : ∀ handle ∈ handles.filter fun handle => machine.document.parent? handle == some target, stead.base ≤ handle := fun handle member => by
    obtain ⟨owner, owns⟩ := mine handle (List.mem_filter.1 member).1
    exact (placed.owned owner handle owns).1
  refine placed.redocument (placed.forest.takenOut takenOut) (Nat.le_of_eq takenOut.size.symm) (fun handle parent child => .inl (takenOut.childOf.1 child).2)
    (fun owner handle owns rests stood => ?_) (by rw [takenOut.children, filter_others inside])
    (fun subscription member new => placed.listening subscription (subscriptions ▸ member) new) fun told => told.takenOut takenOut placed.forest history above
  obtain ⟨parent, stood⟩ := stood
  exact ⟨parent, takenOut.childOf.2 ⟨fun member => rests (busy handle (List.mem_filter.1 member).1 owner owns), stood⟩⟩

variable (owned : ∀ handle ∈ handles, ∃ owner anchor, Owns machine owner handle ∧ Hangs scene machine owner target anchor)

include owned

theorem base_le_of_owned {handle : Handle} (member : handle ∈ handles) : stead.base ≤ handle := by
  obtain ⟨owner, _, owns, _⟩ := owned handle member
  exact (placed.owned owner handle owns).1

variable (here : scene.stead = some stead) (arranged : Arranged scene machine)

include here arranged

theorem lt_of_owned {handle : Handle} (member : handle ∈ handles) : target < handle := by
  obtain ⟨owner, anchor, owns, hangs⟩ := owned handle member
  obtain ⟨home, place, again, less⟩ := placed.reach owner handle owns
  rwa [(again.unique placed arranged here hangs).1]

theorem movable_owned (distinct : handles.Nodup) (known : machine.document.Known target) : machine.document.Movable handles target :=
  placed.movable distinct known fun handle member => by
    obtain ⟨owner, _, owns, _⟩ := owned handle member
    exact ⟨owner, owns, placed.lt_of_owned owned here arranged member⟩

/-- Whatever handle of these stands anywhere stands in the target. -/
theorem free {handle parent : Handle} (member : handle ∈ handles) (child : handle ∈ machine.document.children parent) : parent = target := by
  obtain ⟨owner, anchor, owns, hangs⟩ := owned handle member
  obtain ⟨_, again⟩ := placed.stands owner handle parent owns ((placed.forest.linked handle parent).2 child)
  exact (hangs.unique placed arranged here again).1

variable (distinct : handles.Nodup) (known : machine.document.Known target) (above : stead.base ≤ target → ∃ owner, Owns machine owner target) {spot : Option Handle}

include distinct known above

/-- Handles are put where the nodes that have made them belong. -/
theorem put (done : (Document.mount handles target spot).run machine.document = (.done (), document)) : Placed scene stead { machine with document } := by
  have movable := placed.movable_owned owned here arranged distinct known
  obtain ⟨putIn, history, subscriptions, _⟩ := placed.forest.of_mount movable done
  refine placed.redocument (placed.forest.putIn movable putIn) (Nat.le_of_eq putIn.size.symm) (fun handle parent child => ?_) (fun owner handle _ _ stood => ?_)
    (filter_putIn (fun _ => placed.base_le_of_owned owned) putIn _) (fun subscription member new => placed.listening subscription (subscriptions ▸ member) new) fun told => ?_
  · have moved := putIn.childOf.1 child
    split at moved
    next member =>
      subst moved
      obtain ⟨owner, anchor, owns, hangs⟩ := owned handle member
      exact .inr ⟨owner, anchor, owns, hangs, placed.lt_of_owned owned here arranged member⟩
    next => exact .inl moved
  · by_cases member : handle ∈ handles
    · exact ⟨target, putIn.childOf.2 (by rw [if_pos member])⟩
    · obtain ⟨parent, stood⟩ := stood
      exact ⟨parent, putIn.childOf.2 (by rw [if_neg member]; exact stood)⟩
  · refine told.putIn putIn history (fun handle member => ?_) above fun handle member parent child => placed.free owned here arranged member child
    obtain ⟨owner, _, owns, _⟩ := owned handle member
    exact ⟨owner, owns⟩

/-- Handles are taken out and put where their nodes belong again. -/
theorem move (takenOut : TakenOut machine.document between (handles.filter fun handle => machine.document.parent? handle == some target))
    (history : between.history = .remove handles target :: machine.document.history) (subscriptions : between.subscriptions = machine.document.subscriptions)
    (done : (Document.mount handles target spot).run between = (.done (), document)) : Placed scene stead { machine with document } := by
  have movable := placed.movable_owned owned here arranged distinct known
  have movableLater : between.Movable handles target :=
    ⟨takenOut.known_iff.2 known, fun handle member => takenOut.known_iff.2 (movable.known handle member), distinct,
      fun handle member path => movable.below handle member (ReflTransGen.mono (fun _ _ child => (takenOut.childOf.1 child).2) _ _ path)⟩
  have forest := placed.forest.takenOut takenOut
  obtain ⟨putIn, historyLater, subscriptionsLater, _⟩ := forest.of_mount movableLater done
  have inside : ∀ handle ∈ handles, stead.base ≤ handle := fun _ => placed.base_le_of_owned owned
  refine placed.redocument (forest.putIn movableLater putIn) (Nat.le_of_eq (putIn.size.trans takenOut.size).symm) (fun handle parent child => ?_)
    (fun owner handle _ _ stood => ?_) ?_ (fun subscription member new => placed.listening subscription ((subscriptionsLater.trans subscriptions) ▸ member) new) fun told => ?_
  · have moved := putIn.childOf.1 child
    split at moved
    next member =>
      subst moved
      obtain ⟨owner, anchor, owns, hangs⟩ := owned handle member
      exact .inr ⟨owner, anchor, owns, hangs, placed.lt_of_owned owned here arranged member⟩
    next => exact .inl (takenOut.childOf.1 moved).2
  · by_cases member : handle ∈ handles
    · exact ⟨target, putIn.childOf.2 (by rw [if_pos member])⟩
    · obtain ⟨parent, stood⟩ := stood
      refine ⟨parent, putIn.childOf.2 ?_⟩
      rw [if_neg member]
      exact takenOut.childOf.2 ⟨fun among => member (List.mem_filter.1 among).1, stood⟩
  · rw [filter_putIn inside putIn, takenOut.children, filter_others fun handle member => inside handle (List.mem_filter.1 member).1]
  · refine (told.takenOut takenOut placed.forest history above).putIn putIn historyLater (fun handle member => ?_) above fun handle member parent child => ?_
    · obtain ⟨owner, _, owns, _⟩ := owned handle member
      exact ⟨owner, owns⟩
    · rw [takenOut.children] at child
      exact placed.free owned here arranged member (List.mem_filter.1 child).1

end Placed

/-- Whoever made it: what is a place for nodes is the target of the tree or a handle of a node. -/
theorem Placed.owner_of_home (placed : Placed scene stead machine) (here : scene.stead = some stead) (hangs : Hangs scene machine id target anchor)
    (inside : stead.base ≤ target) : ∃ owner, Owns machine owner target := by
  obtain rfl | owned := hangs.home_cases here
  · exact absurd placed.home (Nat.not_lt.2 inside)
  · exact owned

/-- What belongs in the handle of a node is below it. -/
theorem Hangs.below_owner {owner : NodeId} (hangs : Hangs scene machine id target anchor) (placed : Placed scene stead machine) (here : scene.stead = some stead)
    (owns : Owns machine owner target) (clear : ∀ kid ∈ kids machine owner, Clear scene machine kid) : ∃ kid ∈ kids machine owner, Below machine kid id := by
  induction hangs with
  | adrift free => cases here.symm.trans free
  | root isHere =>
    cases here.symm.trans isHere
    exact absurd placed.home (Nat.not_lt.2 (placed.owned owner _ owns).1)
  | @kid parent kid node _ _ _ _ _ found puts ih =>
    have member : kid ∈ kids machine parent := (mem_kids found).2 (Puts.mem_kids puts)
    have goes (home : ∃ top ∈ kids machine owner, Below machine top parent) : ∃ top ∈ kids machine owner, Below machine top kid := by
      obtain ⟨top, isTop, below⟩ := home
      exact ⟨top, isTop, below.tail member⟩
    cases node with
    | element node =>
      cases placed.sole owner parent _ owns ⟨_, found, puts.2.1⟩
      exact ⟨kid, member, .refl⟩
    | text => exact puts.elim
    | fragment =>
      obtain ⟨_, _, _, rfl, _⟩ := puts
      exact goes (ih owns)
    | conditional | component =>
      obtain ⟨_, rfl, _⟩ := puts
      exact goes (ih owns)
    | list =>
      obtain ⟨rfl, _⟩ := puts
      exact goes (ih owns)
  | @ward holder _ _ _ _ _ guarded ih =>
    obtain ⟨top, isTop, below⟩ := ih owns
    exact absurd (.inr (scene.guards _ _ _ guarded)) (clear top isTop holder below)

/-- In the handle of a node nothing stands if nothing below the node is mounted. -/
theorem Placed.children_eq_nil {handle : Handle} (placed : Placed scene stead machine) (here : scene.stead = some stead) (owns : Owns machine id handle)
    (dark : ∀ kid ∈ kids machine id, Clear scene machine kid ∧ ∀ other, Below machine kid other → ¬ On machine other) : machine.document.children handle = [] := by
  refine List.eq_nil_iff_forall_not_mem.2 fun child member => ?_
  have stands : machine.document.ChildOf child handle := (placed.forest.linked child handle).2 member
  have inside : stead.base ≤ child := by
    obtain outside | inside := Nat.lt_or_ge child stead.base
    · exact absurd (placed.foreign child handle outside stands) (Nat.not_lt.2 (placed.owned id handle owns).1)
    · exact inside
  obtain ⟨owner, ownsChild⟩ := placed.attached child handle inside stands
  obtain ⟨anchor, hangs⟩ := placed.stands owner child handle ownsChild stands
  obtain ⟨kid, isKid, below⟩ := hangs.below_owner placed here owns fun kid isKid => (dark kid isKid).1
  exact (dark kid isKid).2 owner below ownsChild.on

/-- A handle that has just been made is nobody's and stands nowhere. -/
theorem Placed.fresh (placed : Placed scene stead machine) (undisturbed : Undisturbed machine.document document)
    (grown : document.items.size = machine.document.items.size + 1) :
    stead.base ≤ machine.document.items.size ∧ document.Known machine.document.items.size ∧ (∀ owner, ¬ Owns machine owner machine.document.items.size) ∧
      document.parent? machine.document.items.size = none := by
  refine ⟨placed.base, ?_, fun owner owns => ?_, ?_⟩
  · rw [Known, grown]
    exact Nat.lt_succ_self _
  · exact absurd (placed.owned owner _ owns).2 (Nat.lt_irrefl _)
  · rw [undisturbed.parents]
    refine Option.eq_none_iff_forall_ne_some.2 fun parent stands => ?_
    exact absurd (known_of_parent? stands) (Nat.lt_irrefl _)

section

variable {new : Node (Code Memory)} (kindred : ∀ list, old ≠ .list list) (kids : new.kids = old.kids)

include kindred kids

/-- A node comes to own a handle that has just been made. -/
theorem Rehangs.create (placed : Placed scene stead machine) (here : scene.stead = some stead) (undisturbed : Undisturbed machine.document document)
    (grown : document.items.size = machine.document.items.size + 1) (hangs : Hangs scene machine id target anchor)
    (none : old.handle? = none) (created : new.handle? = some machine.document.items.size)
    (unput : ∀ target anchor kid home place, ¬ old.Puts id target anchor kid home place) (free : ∀ kid key, ¬ scene.wards id kid key) :
    Rehangs scene stead { machine with document } id old new := by
  have hangsLater : Hangs scene ({ machine with document } : Stage Memory) id target anchor := hangs.congr rfl rfl fun _ _ _ guarded => guarded
  refine ⟨.inl fun target anchor kid home place puts => absurd puts (unput target anchor kid home place), fun kid member => .inl (kids ▸ member),
    fun kid key guarded => absurd guarded (free kid key), fun _ => .inr ⟨target, anchor, hangsLater⟩, fun handle isHandle => .inr ?_, fun handle isHandle => ?_,
    fun list isList => absurd isList (kindred list)⟩
  · obtain rfl := Option.some.inj (created.symm.trans isHandle)
    obtain ⟨inside, known, unused, rests⟩ := placed.fresh undisturbed grown
    exact ⟨inside, known, unused, rests, target, anchor, hangsLater, placed.known_home here hangs⟩
  · cases none.symm.trans isHandle

/-- A node gives up a handle that has been taken away for good. -/
theorem Rehangs.disown (dark : ∀ kid ∈ old.kids, Clear scene machine kid ∧ ∀ other, Below machine kid other → ¬ On machine other)
    (off : new.isOn = false) (none : new.handle? = none) (unput : ∀ target anchor kid home place, ¬ new.Puts id target anchor kid home place)
    (gone : ∀ handle, old.handle? = some handle → machine.document.parent? handle = Option.none ∧ Since stead.past (Operation.Retired handle) machine.document) :
    Rehangs scene stead machine id old new := by
  refine ⟨.inr dark, fun kid member => .inl (kids ▸ member), fun _ _ _ target anchor home place puts => absurd puts (unput target anchor _ home place), fun on => ?_,
    fun handle isHandle => ?_, fun handle isHandle => .inr (gone handle isHandle), fun list isList => absurd isList (kindred list)⟩
  · cases off.symm.trans on
  · cases none.symm.trans isHandle

end

/-- Below a node that is not mounted nothing is, if everything there rests. -/
theorem Tidy.dark (tidy : Tidy scene machine) (clear : Clear scene machine kid) (off : ¬ On machine kid) (other : NodeId) (below : Below machine kid other) : ¬ On machine other := by
  induction below with
  | refl => exact off
  | tail path member ih =>
    have found := Array.getElem?_eq_getElem (lt_size_of_mem_kids member)
    exact (tidy.arranged.settled _ _ found (clear _ path)).shut ((not_on_iff found).1 ih) _ ((mem_kids found).1 member)

/-! Nodes on their way. -/

variable {nodes : NodeId → Option String → Prop}

/-- Nodes set out, into what waits for them or out of it. -/
theorem Tidy.guard (tidy : Tidy scene machine) (waits : scene.still holder)
    (warded : ∀ stead, scene.stead = some stead → ∀ kid key, nodes kid key → kid < machine.nodes.size ∧ kid ∉ machine.world.roots ∧
      (∀ parent, kid ∈ kids machine parent → parent = holder) ∧
      (∀ node target anchor home place, machine.nodes[holder]? = some node → node.Puts holder target anchor kid home place →
        home = target ∧ place = key.elim anchor (.item holder)) ∧ (∀ other again, ¬ scene.wards other kid again) ∧ ∀ again, nodes kid again → again = key) :
    Tidy (scene.guarding waits nodes) machine := by
  refine tidy.rescene tidy.arranged.inside tidy.arranged.upward (fun _ _ _ isBusy rests => absurd isBusy rests) (fun _ isPending => isPending)
    (fun effect task _ steers => ⟨steers.kept, steers.paused, steers.governs.rescene fun _ _ => .inl⟩) fun stead here => ?_
  have placed := tidy.placed stead here
  have hangs {id : NodeId} {target : Handle} {anchor : Anchor} (hangs : Hangs scene machine id target anchor) : Hangs (scene.guarding waits nodes) machine id target anchor :=
    hangs.congr rfl rfl fun _ _ _ => .inl
  refine placed.shift 0 rfl rfl (fun other kid key guarded => ?_) (fun _ _ _ _ => hangs) (fun _ => .inl) (fun _ _ => .inl) (fun _ _ => .inl)
    (fun owner handle owns rests => .inl ⟨rests, owns⟩) (fun _ kept => kept) fun effect task drives => (placed.fits effect task drives).congr rfl (Nat.le_refl _) rfl fun _ _ _ => .inl
  obtain guarded | ⟨rfl, isNew⟩ := guarded
  · obtain ⟨known, rootless, above, place, sole⟩ := placed.wards other kid key guarded
    refine ⟨known, rootless, above, place, fun rival again guardedToo => ?_⟩
    obtain guardedToo | ⟨rfl, isNew⟩ := guardedToo
    · exact sole rival again guardedToo
    · exact absurd guarded ((warded stead here kid again isNew).2.2.2.2.1 other key)
  · obtain ⟨known, rootless, above, place, free, sole⟩ := warded stead here kid key isNew
    refine ⟨known, rootless, above, place, fun rival again guardedToo => ?_⟩
    obtain guardedToo | ⟨rfl, isNewToo⟩ := guardedToo
    · exact absurd guardedToo (free rival again)
    · exact ⟨rfl, sole again isNewToo⟩

/-- A node belongs where it does without those that have arrived, unless it is below one that has not. -/
private theorem Hangs.unguard_or {waits : scene.still holder} (hangs : Hangs (scene.guarding waits nodes) machine id target anchor) {late : NodeId → Prop}
    (clear : ∀ kid, late kid → Clear scene machine kid)
    (arrived : ∀ kid key, nodes kid key → (∀ target anchor, Hangs scene machine holder target anchor → Hangs scene machine kid target (key.elim anchor (.item holder))) ∨ late kid) :
    Hangs scene machine id target anchor ∨ ∃ kid, late kid ∧ Below machine kid id := by
  induction hangs with
  | adrift free => exact .inl (.adrift free)
  | root here => exact .inl (.root here)
  | kid _ found puts ih =>
    obtain above | ⟨top, isLate, below⟩ := ih
    · exact .inl (.kid above found puts)
    · exact .inr ⟨top, isLate, below.tail ((mem_kids found).2 (Puts.mem_kids puts))⟩
  | @ward other kid key _ _ _ guarded ih =>
    obtain above | ⟨top, isLate, below⟩ := ih
    · obtain guarded | ⟨rfl, isNew⟩ := guarded
      · exact .inl (.ward above guarded)
      · exact (arrived kid key isNew).imp (fun lands => lands _ _ above) fun isLate => ⟨kid, isLate, .refl⟩
    · exact absurd (.inr ((scene.guarding waits nodes).guards _ _ _ guarded)) (clear top isLate other below)

theorem Hangs.unguard {waits : scene.still holder} (hangs : Hangs (scene.guarding waits nodes) machine id target anchor)
    (arrived : ∀ kid key, nodes kid key → (∀ target anchor, Hangs scene machine holder target anchor → Hangs scene machine kid target (key.elim anchor (.item holder))) ∨
      Clear scene machine kid ∧ ¬ Below machine kid id) : Hangs scene machine id target anchor := by
  have either := hangs.unguard_or (fun kid (isLate : Clear scene machine kid ∧ ¬ Below machine kid id) => isLate.1) arrived
  obtain hangs | ⟨_, ⟨_, apart⟩, below⟩ := either
  · exact hangs
  · exact absurd below apart

/-- Nodes have arrived, or nothing below them is mounted. -/
theorem Tidy.unguard {waits : scene.still holder} (tidy : Tidy (scene.guarding waits nodes) machine)
    (arrived : ∀ stead, scene.stead = some stead → ∀ kid key, nodes kid key →
      (∀ target anchor, Hangs scene machine holder target anchor → Hangs scene machine kid target (key.elim anchor (.item holder))) ∨
        (Clear scene machine kid ∧ ∀ other, Below machine kid other → ¬ On machine other)) : Tidy scene machine := by
  refine tidy.rescene tidy.arranged.inside tidy.arranged.upward (fun _ _ _ isBusy rests => absurd isBusy rests) (fun _ isPending => isPending)
    (fun effect task _ steers => ⟨steers.kept, steers.paused, steers.governs.rescene fun _ _ => .inl⟩) fun stead here => ?_
  have placed := tidy.placed stead here
  have lands {id : NodeId} {target : Handle} {anchor : Anchor} (alive : On machine id ∨ scene.Busy id)
      (hangs : Hangs (scene.guarding waits nodes) machine id target anchor) : Hangs scene machine id target anchor :=
    hangs.unguard fun kid key isNew => (arrived stead here kid key isNew).imp_right fun ⟨clear, dark⟩ => ⟨clear, fun below => alive.elim (dark id below) (clear id below)⟩
  refine placed.shift 0 rfl rfl (fun other kid key guarded => ?_) (fun _ _ _ on => lands (.inl on)) (fun _ => .inl) (fun _ _ => .inl) (fun _ _ => .inl)
    (fun owner handle owns rests => .inl ⟨rests, owns⟩) (fun _ kept => kept) fun effect task drives => ?_
  · obtain ⟨known, rootless, above, place, sole⟩ := placed.wards other kid key (.inl guarded)
    exact ⟨known, rootless, above, place, fun rival more guardedToo => sole rival more (.inl guardedToo)⟩
  · have fits := placed.fits effect task drives
    have governs := (tidy.driven.steers effect task drives).governs
    cases task with
    | branches subject target anchor =>
      obtain ⟨node, found, mounted, _⟩ := governs
      exact lands (.inl ⟨_, found, mounted⟩) fits
    | items subject target =>
      obtain ⟨list, found, hangs⟩ := fits
      obtain ⟨again, foundAgain, mounted, _⟩ := governs
      cases found.symm.trans foundAgain
      exact ⟨list, found, lands (mounted.imp (fun mounted => ⟨_, found, mounted⟩) .inl) hangs⟩
    | text subject accessor =>
      obtain ⟨node, found, shown⟩ := governs
      obtain ⟨target, anchor, hangs⟩ := fits
      exact ⟨target, anchor, lands (.inl ⟨_, found, shown⟩) hangs⟩
    | property | classes => exact fits
    | host => trivial

end ReactiveMarkup.Rendering
