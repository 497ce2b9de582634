import ReactiveMarkup.Proofs.EntryLaws
import ReactiveMarkup.Proofs.UprightBranches

/-! What keyed lists do to trees, however it ends. A list gets the nodes of new items, which nothing else is above. -/

namespace ReactiveMarkup.Rendering

open ReactiveMarkup.Step ReactiveMarkup.Graph ReactiveMarkup.Machine

variable {Memory : Type} {α β : Type} {start machine before middle after : Stage Memory} {roots more : NodeId → Prop} {whole : Prop} {id : NodeId}
  {calls : Calls (Host.rendering Memory)}

section

variable (keeps : KeepsTrees calls) (upright : Upright machine)

include keeps upright

theorem off_readItems {source : ItemSource (Code Memory)} (hosted : source.accessor.Hosted) : Tends.off (readItems calls source) machine := by
  refine .bind (off_access keeps upright hosted) fun value _ _ alters => ?_
  split
  next => exact .pure alters _
  next =>
    split
    next => exact .panic alters _
    next => exact .pure alters _

theorem off_trackItems {tracker : Tracker (Code Memory)} (hosted : ∃ code, tracker = .host code) (items : List Value) :
    Tends.off (trackItems calls tracker items) machine := by
  obtain ⟨code, rfl⟩ := hosted
  induction items generalizing machine with
  | nil => exact .pure (.refl upright) _
  | cons item rest ih =>
    refine .bind (.bind (keeps.call code [item] machine upright) fun _ _ _ alters => .pure alters _) fun key _ _ alters => ?_
    exact .bind (.idle alters (ih alters.upright)) fun _ _ _ alters => .pure alters _

/-- The node of an item is new. -/
theorem off_buildItem_hosted {builder : ItemBuilder (Code Memory)} (hosted : ∃ code, builder = .host code) (signal : Nat) :
    Tends.off (Machine.buildItem calls builder signal) machine ∧
      ∀ child after, (Machine.buildItem calls builder signal).run machine = (.done child, after) → Fresh machine after child := by
  obtain ⟨code, rfl⟩ := hosted
  have readable : Upright { machine with functions := machine.functions.push (.signal signal) } := upright.carry rfl rfl
  have ran : (Machine.buildItem calls (.host code) signal).run machine =
      (calls.build code [.function machine.functions.size, (machine.graph.value? signal).getD .undefined]).run
        { machine with functions := machine.functions.push (.signal signal) } := rfl
  obtain ⟨builds, fresh⟩ := keeps.build code [.function machine.functions.size, (machine.graph.value? signal).getD .undefined] _ readable
  have registered : Alters (fun _ => False) True machine { machine with functions := machine.functions.push (.signal signal) } := (Alters.refl upright).carry rfl rfl
  refine ⟨?_, fun child after done => ?_⟩
  · rw [Tends.off, Tends, ran]
    exact registered.trans builds fun _ => False.elim
  · obtain ⟨new, inside⟩ := fresh child after (ran.symm.trans done)
    exact ⟨new, inside⟩

end

section

variable (keeps : KeepsTrees calls) (alters : Alters roots True start machine)

include keeps alters

theorem tends_unmountEntries (target : Handle) {entries : Entries ListEntry} (below : ∀ entry ∈ entries, Owned roots start entry.2.node) (wanted : List String) :
    Tends roots start (unmountEntries calls target entries wanted) machine := by
  induction wanted generalizing machine with
  | nil => exact .pure alters _
  | cons key rest ih =>
    unfold unmountEntries
    split
    next entry found => exact .bind (tends_unmountKid keeps alters (below _ (Entries.mem_of_get? found)) target) fun _ _ _ alters => ih alters
    next => exact ih alters

end

section

variable (keeps : KeepsTrees calls) (alters : Alters roots True start machine) (owned : Owned roots start id)

include keeps alters owned

omit keeps in
theorem owned_entry {list : ListNode (Code Memory)} (found : machine.nodes[id]? = some (.list list)) {entry : String × ListEntry} (member : entry ∈ list.entries) :
    Owned roots start entry.2.node :=
  owned_kid alters owned found (List.mem_append_left _ (List.mem_map_of_mem member))

omit keeps in
theorem owned_empty {list : ListNode (Code Memory)} (found : machine.nodes[id]? = some (.list list)) {empty : NodeId} (isEmpty : list.empty = some empty) :
    Owned roots start empty :=
  owned_kid alters owned found (List.mem_append_right _ (by rw [isEmpty, Option.toList_some]; exact List.mem_singleton_self _))

theorem tends_unmountItems (target : Handle) : Tends roots start (unmountItems calls id target) machine := by
  refine tends_list? (.pure alters _) fun list found => ?_
  have below : ∀ entry ∈ list.entries, Owned roots start entry.2.node := fun _ member => owned_entry alters owned found member
  refine .bind (tends_modifyList alters owned fun _ => ⟨_, _, _, _, _, _, rfl, List.nil_sublist _⟩) fun _ _ _ alters => ?_
  exact tends_unmountEntries keeps alters target below _

theorem tends_removeVanished (target : Handle) (wanted old : List String) : Tends roots start (removeVanished calls id target wanted old) machine := by
  induction old generalizing machine with
  | nil => exact .pure alters _
  | cons key rest ih =>
    unfold removeVanished
    split
    next =>
      refine tends_list? (ih alters) fun list found => ?_
      have below : ∀ entry ∈ list.entries, Owned roots start entry.2.node := fun _ member => owned_entry alters owned found member
      refine .bind (tends_modifyList alters owned fun _ => ⟨_, _, _, _, _, _, rfl, List.filter_sublist⟩) fun _ _ _ alters => ?_
      dsimp only
      split
      next entry isEntry => exact .bind (tends_unmountKid keeps alters (below _ (Entries.mem_of_get? isEntry)) target) fun _ _ _ alters => ih alters
      next => exact ih alters
    next => exact ih alters

omit owned in
theorem tends_moveIntoPlace (target : Handle) (index : Nat) (child : NodeId) : Tends roots start (moveIntoPlace calls id target index child) machine := by
  refine .seen_bind alters (keeps.elements child machine) fun handles _ => ?_
  split
  next => exact .pure alters _
  next =>
    refine tends_list? (.pure alters _) fun list found => ?_
    refine .seen_bind alters (silent_anchorBefore keeps.resolve keeps.elements list index machine) fun place _ => ?_
    have moves (inPlace : Bool) {between : Stage Memory} (alters : Alters roots True start between) : Tends roots start
        (if inPlace = true then pure () else edit (Document.unmount handles target) >>= fun _ => edit (Document.mount handles target place) : Act Memory Unit)
        between := by
      split
      · exact .pure alters _
      · exact .bind (.edit alters _) fun _ _ _ alters => .edit alters _
    split
    next => exact .bind (.edit alters _) fun inPlace _ _ alters => moves inPlace alters
    next => exact .bind (.edit alters _) fun inPlace _ _ alters => moves inPlace alters

/-- A new item gets a signal and a node, which nothing was above before. -/
theorem tends_addItem (inside : id < machine.nodes.size) (target : Handle) {builder : ItemBuilder (Code Memory)} (hosted : ∃ code, builder = .host code)
    (key : String) (item : Value) : Tends roots start (addItem calls id target builder key item) machine := by
  have signalled : (machine.graph.add (.signal item)).2.content? machine.graph.vertices.size = some (.signal item) := by
    rw [content?_add, if_pos rfl]
  refine .bind (.idle alters (off_addToGraph alters.upright nofun nofun)) ?_
  rintro _ _ ⟨⟩ alters
  obtain ⟨builds, fresh⟩ := off_buildItem_hosted keeps (alters.upright.carry rfl rfl : Upright { machine with
    graph := (machine.graph.add (.signal item)).2, held := [] ++ machine.held }) hosted machine.graph.vertices.size
  have made : Tends.off (holding [] (Machine.buildItem calls builder machine.graph.vertices.size)) { machine with graph := (machine.graph.add (.signal item)).2 } :=
    .holding alters.upright builds
  refine .bind (.idle alters made) fun child later ran laterAlters => ?_
  have new : Fresh { machine with graph := (machine.graph.add (.signal item)).2 } later child := fresh_of_holding (fresh child) ran
  have mounts : Tends (· = child) later (holding [.node child] (calls.mount child target (.item id key))) later :=
    .holding laterAlters.upright (keeps.mount child target _ _ (laterAlters.upright.carry rfl rfl))
  have isNew : start.nodes.size ≤ child := Nat.le_trans alters.grows.size new.1
  refine .bind (.call laterAlters mounts fun _ same => .inr (same ▸ isNew)) fun _ last ranLast lastAlters => ?_
  have grown := (made.of_done ran).grows.trans (mounts.of_done ranLast).grows
  obtain ⟨value, signal⟩ := ((made.of_done ran).kept.trans (mounts.of_done ranLast).kept).steady.signals _ item signalled
  refine tends_list? (.pure lastAlters _) fun list found => ?_
  obtain ⟨items, tracker, builder, apart⟩ : Formed (.list list) := lastAlters.upright.formed id _ found
  have formed : Formed (.list { list with entries := Entries.put list.entries key ⟨machine.graph.vertices.size, child⟩ }) :=
    ⟨items, tracker, builder, Entries.nodup_put apart key _⟩
  refine .set lastAlters found owned rfl formed (fun kid member => ?_) (fun entry member => ?_) fun _ stuck => stuck.elim
  · obtain inItems | inEmpty := List.mem_append.1 member
    · obtain ⟨entry, inEntries, rfl⟩ := List.mem_map.1 inItems
      obtain rfl | old := Entries.eq_or_mem_of_mem_put inEntries
      · refine .inr ⟨isNew, Nat.lt_of_lt_of_le new.2 (mounts.of_done ranLast).grows.size, fun below => ?_⟩
        exact absurd inside (Nat.not_lt.2 (grown.new_of_below new.1 below))
      · exact .inl (List.mem_append_left _ (List.mem_map_of_mem old))
    · exact .inl (List.mem_append_right _ inEmpty)
  · obtain rfl | old := Entries.eq_or_mem_of_mem_put member
    · exact ⟨value, signal⟩
    · exact lastAlters.upright.fair id (.list list) found entry old

theorem tends_placeItems (target : Handle) (index : Nat) (items : List (String × Value)) : Tends roots start (placeItems calls id target index items) machine := by
  induction items generalizing machine index with
  | nil => exact .pure alters _
  | cons first rest ih =>
    obtain ⟨key, item⟩ := first
    refine tends_list? (.pure alters _) fun list found => ?_
    have fair := alters.upright.fair id (.list list) found
    have hosted : ∃ code, list.builder = .host code := (alters.upright.formed id (.list list) found).2.2.1
    dsimp only
    split
    next entry isEntry =>
      have moves : Tends.off (moveIntoPlace calls id target index entry.node) machine := tends_moveIntoPlace keeps (.refl alters.upright) target index entry.node
      refine .bind (.idle alters moves) fun _ between ran alters => ?_
      obtain ⟨old, signal⟩ := fair _ (Entries.mem_of_get? isEntry)
      obtain ⟨held, signal⟩ := (moves.of_done ran).kept.steady.signals _ old signal
      exact .bind (.idle alters (off_writeSignal keeps alters.upright signal item)) fun _ _ _ alters => ih alters (index + 1)
    next => exact .bind (tends_addItem keeps alters owned (Array.getElem?_eq_some_iff.1 found).1 target hosted key item) fun _ _ _ alters => ih alters (index + 1)

theorem tends_showEmpty (target : Handle) {empty : NodeId} (below : Owned roots start empty) : Tends roots start (showEmpty calls id target empty) machine := by
  refine tends_list? (.pure alters _) fun list found => ?_
  dsimp only
  split
  next => exact .pure alters _
  next =>
    refine .bind (tends_unmountItems keeps alters owned target) fun _ _ _ alters => .bind (tends_mountKid keeps alters below target _) fun _ _ _ alters => ?_
    exact tends_modifyList alters owned fun _ => ⟨_, _, _, _, _, _, rfl, .refl _⟩

theorem tends_hideEmpty (target : Handle) : Tends roots start (hideEmpty calls id target) machine := by
  refine tends_list? (.pure alters _) fun list found => ?_
  dsimp only
  split
  next => exact .pure alters _
  next =>
    refine .bind (.forM alters fun empty member _ later => ?_) fun _ _ _ alters => tends_modifyList alters owned fun _ => ⟨_, _, _, _, _, _, rfl, .refl _⟩
    exact tends_unmountKid keeps later (owned_empty alters owned found (Option.mem_toList.1 member)) target

theorem tends_showItems (target : Handle) (items : List Value) (wanted : List String) : Tends roots start (showItems calls id target items wanted) machine := by
  unfold showItems
  split
  next => exact .panic alters _
  next =>
    refine tends_list? (.pure alters _) fun list found => ?_
    refine .bind (tends_modifyList alters owned fun _ => ⟨_, _, _, _, _, _, rfl, .refl _⟩) fun _ _ _ alters => ?_
    exact .bind (tends_removeVanished keeps alters owned target _ _) fun _ _ _ alters => tends_placeItems keeps alters owned target 0 _

theorem tends_reconcile (target : Handle) (items : List Value) (wanted : List String) : Tends roots start (reconcile calls id target items wanted) machine := by
  have full {between : Stage Memory} (alters : Alters roots True start between) : Tends roots start
      (hideEmpty calls id target >>= fun _ => showItems calls id target items wanted) between :=
    .bind (tends_hideEmpty keeps alters owned target) fun _ _ _ alters => tends_showItems keeps alters owned target items wanted
  refine tends_list? ?_ fun list found => ?_
  · cases items with
    | nil => exact tends_showItems keeps alters owned target [] wanted
    | cons item rest => exact full alters
  · dsimp only
    rw [Option.bind_some]
    split
    next empty isEmpty => exact tends_showEmpty keeps alters owned target (owned_empty alters owned found isEmpty)
    next => exact tends_showItems keeps alters owned target [] wanted
    next => exact full alters

theorem tends_mountList (target : Handle) (anchor : Anchor) : Tends roots start (mountList calls id target anchor) machine := by
  refine .bind (tends_modifyList alters owned fun _ => ⟨_, _, _, _, _, _, rfl, .refl _⟩) fun _ _ _ alters => ?_
  have formed : (Task.items id target : Task (Code Memory)).Formed := trivial
  refine .bind (tends_ownEffect keeps alters owned formed fun _ same => (Option.some.inj same).symm) fun effect _ _ alters => ?_
  exact tends_modifyList alters owned fun _ => ⟨_, _, _, _, _, _, rfl, .refl _⟩

theorem tends_unmountList (list : ListNode (Code Memory)) (target : Handle) : Tends roots start (unmountList calls id list target) machine := by
  have clears {between : Stage Memory} (alters : Alters roots True start between) : Tends roots start
      (unmountItems calls id target >>= fun _ => modifyList id fun node => { node with mounted := false }) between :=
    .bind (tends_unmountItems keeps alters owned target) fun _ _ _ alters => tends_modifyList alters owned fun _ => ⟨_, _, _, _, _, _, rfl, .refl _⟩
  unfold unmountList
  split
  next => exact .pure alters _
  next =>
    refine .bind (tends_modifyList alters owned fun _ => ⟨_, _, _, _, _, _, rfl, .refl _⟩) fun _ _ _ alters => ?_
    refine .bind (.idle alters (off_disposeAll keeps alters.upright _)) fun _ _ _ alters => tends_list? (.pure alters _) fun current found => ?_
    dsimp only
    split
    next =>
      have below (empty : NodeId) (member : empty ∈ current.empty.toList) : Owned roots start empty := owned_empty alters owned found (Option.mem_toList.1 member)
      refine .bind (tends_modifyList alters owned fun _ => ⟨_, _, _, _, _, _, rfl, .refl _⟩) fun _ _ _ alters => ?_
      exact .bind (.forM alters fun empty member _ alters => tends_unmountKid keeps alters (below empty member) target) fun _ _ _ alters => clears alters
    next => exact clears alters

end

/-- A pass of a list is about what is below it. -/
theorem tends_refreshItems (keeps : KeepsTrees calls) (upright : Upright machine) (target : Handle) : Tends (· = id) machine (refreshItems calls id target) machine := by
  refine tends_list? (.pure (.refl upright) _) fun list found => ?_
  obtain ⟨items, tracker, _⟩ : Formed (.list list) := upright.formed id _ found
  refine .bind (off_readItems keeps upright items).weaken fun values _ _ alters => ?_
  refine .bind (.idle alters (off_trackItems keeps alters.upright tracker values)) fun wanted _ _ alters => ?_
  exact .call alters (.observed alters.upright (tends_reconcile keeps (.refl alters.upright.unobserved) .self target values wanted)) fun _ same => .root same

end ReactiveMarkup.Rendering
