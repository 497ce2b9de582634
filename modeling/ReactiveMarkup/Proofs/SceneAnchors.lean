import ReactiveMarkup.Proofs.SceneLists

/-! What a mounted node shows. The handles that it gives are its own or those of nodes below it, all of them made for the target
in which it belongs, and it gives none of them twice. -/

namespace ReactiveMarkup.Rendering

open ReactiveMarkup.Step ReactiveMarkup.Graph ReactiveMarkup.Machine Relation

variable {Memory : Type} {scene : Scene} {machine : Stage Memory} {id kid : NodeId} {target handle : Handle} {anchor : Anchor}
  {tops others : List NodeId} {handles more : List Handle} {calls : Calls (Host.rendering Memory)} {list : ListNode (Code Memory)}

/-- Of two nodes above a third, one is above the other. -/
theorem Arranged.above_cases (arranged : Arranged scene machine) {first second other : NodeId} (below : Below machine first other) (again : Below machine second other) :
    Below machine first second ∨ Below machine second first := by
  have up (kid parent above : NodeId) (member : kid ∈ kids machine parent) (memberToo : kid ∈ kids machine above) : parent = above :=
    arranged.unique parent above kid member memberToo
  have upward : Relator.RightUnique (Function.swap fun parent kid => kid ∈ kids machine parent) := fun {kid parent above} member memberToo => up kid parent above member memberToo
  exact (ReflTransGen.total_of_right_unique upward below.swap again.swap).symm.imp (fun path => reflTransGen_swap.1 path) fun path => reflTransGen_swap.1 path

/-- Nodes right below one node have nothing below them in common. -/
theorem Tidy.apart_of_kids (tidy : Tidy scene machine) {first second other : NodeId} (member : first ∈ kids machine id) (memberToo : second ∈ kids machine id) (apart : first ≠ second)
    (below : Below machine first other) : ¬ Below machine second other := by
  have never {first second : NodeId} (member : first ∈ kids machine id) (memberToo : second ∈ kids machine id) (apart : first ≠ second) : ¬ Below machine first second := by
    intro path
    obtain same | ⟨parent, path, above⟩ := path.cases_tail
    · exact apart same.symm
    · cases tidy.only memberToo parent above
      exact tidy.upright.acyclic id first member path
  exact fun again => (tidy.arranged.above_cases below again).elim (never member memberToo apart) (never memberToo member apart.symm)

namespace Bears

theorem nil : Bears scene machine target tops [] := ⟨List.nodup_nil, nofun⟩

theorem single (owns : Owns machine id handle) (hangs : Hangs scene machine id target anchor) : Bears scene machine target [id] [handle] :=
  ⟨List.nodup_singleton handle, fun _ member => ⟨id, List.mem_singleton_self id, id, anchor, .refl, List.mem_singleton.1 member ▸ owns, hangs⟩⟩

/-- What the nodes right below a node show is shown by the node. -/
theorem lift (bears : Bears scene machine target tops handles) (inside : tops ⊆ kids machine id) : Bears scene machine target [id] handles := by
  refine ⟨bears.distinct, fun handle member => ?_⟩
  obtain ⟨top, isTop, owner, anchor, below, owned⟩ := bears.owned handle member
  exact ⟨id, List.mem_singleton_self id, owner, anchor, .head (inside isTop) below, owned⟩

/-- Nodes with nothing in common do not show the same handle. -/
theorem append (first : Bears scene machine target tops handles) (second : Bears scene machine target others more)
    (sole : ∀ owner other handle, Owns machine owner handle → Owns machine other handle → owner = other)
    (apart : ∀ top ∈ tops, ∀ other ∈ others, ∀ owner, Below machine top owner → ¬ Below machine other owner) : Bears scene machine target (tops ++ others) (handles ++ more) := by
  refine ⟨first.distinct.append second.distinct fun handle member memberToo => ?_, fun handle member => ?_⟩
  · obtain ⟨top, isTop, owner, _, below, owns, _⟩ := first.owned handle member
    obtain ⟨other, isOther, again, _, belowToo, ownsToo, _⟩ := second.owned handle memberToo
    cases sole owner again handle owns ownsToo
    exact apart top isTop other isOther owner below belowToo
  · obtain old | new := List.mem_append.1 member
    · exact (first.owned handle old).imp fun top => And.imp_left (List.mem_append_left _)
    · exact (second.owned handle new).imp fun top => And.imp_left (List.mem_append_right _)

end Bears

section

variable (keeps : KeepsScenes calls) (tidy : Tidy scene machine) (clear : Clear scene machine id)

include keeps tidy clear

/-- What several of the nodes right below a node show. -/
theorem bears_all (members : List NodeId) (inside : members ⊆ kids machine id) (distinct : members.Nodup) (hangs : ∀ kid ∈ members, ∃ anchor, Hangs scene machine kid target anchor) :
    Ensures .any (allElements calls members) machine fun handles _ => ∀ stead, scene.stead = some stead → Bears scene machine target members handles := by
  induction members with
  | nil => exact fun _ _ => .nil
  | cons first rest ih =>
    obtain ⟨isKid, areKids⟩ := List.cons_subset.1 inside
    obtain ⟨isNew, distinct⟩ := List.nodup_cons.1 distinct
    obtain ⟨anchor, here⟩ := hangs first (List.mem_cons_self ..)
    rw [allElements, ensures_bind]
    refine ensures_still (keeps.elements first target anchor tidy (fun other below => clear other (.head isKid below)) here) (keeps.trees.elements first machine) fun handles shown => ?_
    rw [ensures_bind]
    refine (ih areKids distinct fun kid member => hangs kid (List.mem_cons_of_mem _ member)).mono fun more _ others stead set => ?_
    refine (shown stead set).append (others stead set) (tidy.placed stead set).sole fun top isTop other isOther owner => ?_
    obtain rfl := List.mem_singleton.1 isTop
    exact tidy.apart_of_kids isKid (areKids isOther) fun same => isNew (same ▸ isOther)

/-- What the entries of a list show. -/
theorem bears_items (found : machine.nodes[id]? = some (.list list)) (hangs : Hangs scene machine id target anchor) (keys : List String) (distinct : keys.Nodup) :
    Ensures .any (itemElements calls list.entries keys) machine fun handles _ => ∀ stead, scene.stead = some stead →
      ∃ tops, Bears scene machine target tops handles ∧ ∀ top ∈ tops, ∃ key ∈ keys, ∃ entry ∈ list.entries, entry.1 = key ∧ entry.2.node = top := by
  induction keys with
  | nil => exact fun _ _ => ⟨[], .nil, nofun⟩
  | cons key rest ih =>
    obtain ⟨isNew, distinct⟩ := List.nodup_cons.1 distinct
    unfold itemElements
    split
    next => trivial
    next entry isEntry =>
      have member := Entries.mem_of_get? isEntry
      have isKid : entry.node ∈ kids machine id := (mem_kids found).2 (mem_kids_of_entry member)
      have here : Hangs scene machine entry.node target (.item id key) := .kid hangs found ⟨rfl, .inr ⟨_, member, rfl, rfl⟩⟩
      rw [ensures_bind]
      refine ensures_still (keeps.elements _ target _ tidy (fun other below => clear other (.head isKid below)) here) (keeps.trees.elements _ machine) fun handles shown => ?_
      rw [ensures_bind]
      refine (ih distinct).mono fun more _ others stead set => ?_
      obtain ⟨tops, bears, named⟩ := others stead set
      refine ⟨[entry.node] ++ tops, (shown stead set).append bears (tidy.placed stead set).sole fun top isTop other isOther owner => ?_, fun top isTop => ?_⟩
      · obtain rfl := List.mem_singleton.1 isTop
        obtain ⟨name, isName, another, memberToo, rfl, rfl⟩ := named other isOther
        refine tidy.apart_of_kids isKid ((mem_kids found).2 (mem_kids_of_entry memberToo)) fun same => isNew ?_
        have names := (List.nodup_append.1 (distinct_kids tidy.arranged found)).1
        rw [← List.inj_on_of_nodup_map names member memberToo same] at isName
        exact isName
      · obtain rfl | later := List.mem_cons.1 isTop
        · exact ⟨key, List.mem_cons_self .., _, member, rfl, rfl⟩
        · obtain ⟨name, isName, named⟩ := named top later
          exact ⟨name, List.mem_cons_of_mem _ isName, named⟩

/-- A list shows its entries or its node for no items. -/
theorem bears_list (found : machine.nodes[id]? = some (.list list)) (hangs : Hangs scene machine id target anchor) (on : list.mounted = true) :
    Ensures .any (match list.emptyMounted, list.empty with
      | true, some empty => calls.elements empty
      | _, _ => itemElements calls list.entries list.keys) machine fun handles _ => ∀ stead, scene.stead = some stead → Bears scene machine target [id] handles := by
  split
  next empty _ isEmpty =>
    have isKid : empty ∈ kids machine id := (mem_kids found).2 (mem_kids_of_empty isEmpty)
    have here : Hangs scene machine empty target anchor := .kid hangs found ⟨rfl, .inl ⟨isEmpty, rfl⟩⟩
    exact (keeps.elements empty target anchor tidy (fun other below => clear other (.head isKid below)) here).mono fun handles _ shown stead set =>
      (shown stead set).lift fun top isTop => List.mem_singleton.1 isTop ▸ isKid
  next =>
    have settled := tidy.arranged.settled id _ found (clear id .refl)
    obtain ⟨driver, _, _, drives⟩ : Watched machine id (.list list) := settled.watched on
    obtain ⟨_, _, lists⟩ := (tidy.driven.steers driver _ drives).governs.of_list found rfl
    refine (bears_items keeps tidy clear found hangs list.keys lists.distinct).mono fun handles _ shown stead set => ?_
    obtain ⟨tops, bears, named⟩ := shown stead set
    refine bears.lift fun top isTop => ?_
    obtain ⟨_, _, entry, member, _, rfl⟩ := named top isTop
    exact (mem_kids found).2 (mem_kids_of_entry member)

/-- What a node shows has been made for the target in which it belongs. -/
theorem bears_elements (hangs : Hangs scene machine id target anchor) :
    Ensures .any (Machine.elements calls id) machine fun handles _ => ∀ stead, scene.stead = some stead → Bears scene machine target [id] handles := by
  have several {node : Node (Code Memory)} (found : machine.nodes[id]? = some node) (members : List NodeId) (inside : members ⊆ node.kids) (distinct : members.Nodup)
      (puts : ∀ kid ∈ members, ∃ place, node.Puts id target anchor kid target place) :
      Ensures .any (allElements calls members) machine fun handles _ => ∀ stead, scene.stead = some stead → Bears scene machine target [id] handles := by
    have isKid : members ⊆ kids machine id := fun kid member => (mem_kids found).2 (inside member)
    refine (bears_all keeps tidy clear members isKid distinct fun kid member => ?_).mono fun handles _ shown stead set => (shown stead set).lift isKid
    obtain ⟨place, isPut⟩ := puts kid member
    exact ⟨place, .kid hangs found isPut⟩
  rw [Machine.elements, ensures_node?]
  split
  next => exact fun _ _ => .nil
  next node found =>
    split
    next handle isHandle => exact fun _ _ => .single ⟨_, found, isHandle⟩ hangs
    next => trivial
  next node found =>
    split
    next handle isHandle => exact fun _ _ => .single ⟨_, found, isHandle⟩ hangs
    next => trivial
  next node found =>
    split
    next =>
      refine several found node.children (fun _ member => member) (distinct_kids tidy.arranged found) fun kid member => ?_
      obtain ⟨front, back, split⟩ := List.append_of_mem member
      exact ⟨_, front, back, split, rfl, rfl⟩
    next => trivial
  next node found =>
    split
    next =>
      have fair : Fair machine.graph (.conditional node) := tidy.upright.fair id _ found
      have nodup : node.active.toList.Nodup := by cases node.active <;> simp
      have inside : node.active.toList ⊆ (Node.conditional node).kids := fun kid member => mem_kids_of_active fair (Option.mem_toList.1 member)
      exact several found _ inside nodup fun kid member => ⟨anchor, inside member, rfl, rfl⟩
    next => trivial
  next list found =>
    split
    next => trivial
    next on => exact bears_list keeps tidy clear found hangs (by simpa using on)
  next node found =>
    split
    next => exact several found node.child.toList (fun _ member => member) (distinct_kids tidy.arranged found) fun kid member => ⟨anchor, Option.mem_toList.1 member, rfl, rfl⟩
    next => trivial

end

end ReactiveMarkup.Rendering
