import ReactiveMarkup.Proofs.SceneLists

/-! Unmounting comes to its end. It takes away what is there and runs no code, so it needs no more calls than the tree is
high. -/

namespace ReactiveMarkup.Rendering

open ReactiveMarkup.Step ReactiveMarkup.Graph ReactiveMarkup.Machine

variable {Memory : Type} {α β : Type} {breaks : Breaks} {start between machine after : Stage Memory} {id kid : NodeId} {effect depth : Nat} {target handle : Handle}
  {calls : Calls (Host.rendering Memory)} {old new : Node (Code Memory)}

/-! How high a tree is. -/

/-- A node below which there are fewer layers of nodes than given. -/
def Shallow (machine : Stage Memory) : Nat → NodeId → Prop
  | 0, _ => False
  | height + 1, id => ∀ kid ∈ kids machine id, Shallow machine height kid

theorem Shallow.mono {height more : Nat} (shallow : Shallow machine height id) (enough : height ≤ more) (fewer : ∀ parent, kids after parent ⊆ kids machine parent) :
    Shallow after more id := by
  induction height generalizing id more with
  | zero => exact shallow.elim
  | succ height ih =>
    obtain ⟨more, rfl⟩ : ∃ rest, more = rest + 1 := ⟨more - 1, by omega⟩
    exact fun kid member => ih (shallow kid (fewer id member)) (Nat.le_of_succ_le_succ enough)

/-- Some height is enough for several nodes. -/
theorem exists_shallow_of_all {nodes : List NodeId} (each : ∀ kid ∈ nodes, ∃ height, Shallow machine height kid) : ∃ height, ∀ kid ∈ nodes, Shallow machine height kid := by
  induction nodes with
  | nil => exact ⟨0, nofun⟩
  | cons first rest ih =>
    obtain ⟨high, shallow⟩ := each first (List.mem_cons_self ..)
    obtain ⟨height, all⟩ := ih fun kid member => each kid (List.mem_cons_of_mem _ member)
    refine ⟨max high height, fun kid member => ?_⟩
    obtain rfl | member := List.mem_cons.1 member
    · exact shallow.mono (Nat.le_max_left ..) fun _ _ member => member
    · exact (all kid member).mono (Nat.le_max_right ..) fun _ _ member => member

/-- No tree is infinitely high. The induction is on the number of nodes below, of which a kid has fewer. -/
theorem Upright.exists_shallow (upright : Upright machine) (id : NodeId) : ∃ height, Shallow machine height id := by
  classical
  induction count : ((Finset.range machine.nodes.size).filter (Below machine id)).card using Nat.strong_induction_on generalizing id with
  | _ count ih =>
    have each (kid : NodeId) (member : kid ∈ kids machine id) : ∃ height, Shallow machine height kid := by
      refine ih _ ?_ kid rfl
      rw [← count]
      refine Finset.card_lt_card ((Finset.ssubset_iff_of_subset fun other inside => ?_).2 ⟨id, ?_, fun inside => ?_⟩)
      · obtain ⟨known, below⟩ := Finset.mem_filter.1 inside
        exact Finset.mem_filter.2 ⟨known, .head member below⟩
      · exact Finset.mem_filter.2 ⟨Finset.mem_range.2 (lt_size_of_mem_kids member), .refl⟩
      · exact upright.acyclic id kid member (Finset.mem_filter.1 inside).2
    obtain ⟨height, all⟩ := exists_shallow_of_all each
    exact ⟨height + 1, all⟩

/-! What unmounting keeps. -/

/-- An effect that leaves nothing to clean up. -/
def Clean (machine : Stage Memory) (effect : Nat) : Prop :=
  ∀ record, machine.graph.content? effect = some (.effect record) → record.disposed = false → record.cleanup = none

/-- Handles that nodes have made are known, and effects of nodes leave nothing to clean up. -/
structure Firm (machine : Stage Memory) : Prop where
  forest : machine.document.Forest
  known : ∀ id handle, Owns machine id handle → machine.document.Known handle
  clean : ∀ id effect, Keeps machine id (.effect effect) → Clean machine effect
  active : ∀ (id : NodeId) (node : ConditionalNode (Code Memory)), machine.nodes[id]? = some (.conditional node) → ∀ kid ∈ node.active, kid ∈ (Node.conditional node).kids

/-- What taking things away leaves behind. -/
structure Clears (before after : Stage Memory) : Prop where
  firm : Firm after
  size : after.nodes.size = before.nodes.size
  kids : ∀ parent, kids after parent ⊆ kids before parent
  known : ∀ handle, before.document.Known handle → after.document.Known handle
  clean : ∀ effect, Clean before effect → Clean after effect

namespace Clears

theorem refl (firm : Firm machine) : Clears machine machine := ⟨firm, rfl, fun _ _ member => member, fun _ known => known, fun _ clean => clean⟩

theorem trans (first : Clears start between) (second : Clears between after) : Clears start after :=
  ⟨second.firm, second.size.trans first.size, fun parent _ member => first.kids parent (second.kids parent member), fun handle known => second.known handle (first.known handle known),
    fun effect clean => second.clean effect (first.clean effect clean)⟩

theorem shallow (clears : Clears start machine) {height : Nat} (shallow : Shallow start height id) : Shallow machine height id :=
  shallow.mono (Nat.le_refl _) clears.kids

theorem exists_record (clears : Clears start machine) (found : start.nodes[id]? = some old) : ∃ record, machine.nodes[id]? = some record :=
  ⟨_, Array.getElem?_eq_getElem (clears.size.symm ▸ (Array.getElem?_eq_some_iff.1 found).1)⟩

/-- A record comes to hold less than what has been there. -/
theorem record (clears : Clears start machine) (found : machine.nodes[id]? = some old) (fewer : ∀ kid ∈ new.kids, kid ∈ Rendering.kids start id)
    (handles : ∀ handle, new.handle? = some handle → machine.document.Known handle) (disposables : ∀ effect, .effect effect ∈ new.disposables → Clean machine effect)
    (active : ∀ node, new = .conditional node → ∀ kid ∈ node.active, kid ∈ new.kids) : Clears start (recording machine id new) := by
  refine ⟨⟨clears.firm.forest, fun other handle ⟨node, isNode, owns⟩ => ?_, fun other effect ⟨node, isNode, keeps⟩ => ?_, fun other node isNode => ?_⟩, ?_, fun parent kid member => ?_, clears.known, clears.clean⟩
  · by_cases here : other = id
    · subst here
      cases (recording_self found).symm.trans isNode
      exact handles handle owns
    · exact clears.firm.known other handle ⟨node, (recording_of_ne here).symm.trans isNode, owns⟩
  · by_cases here : other = id
    · subst here
      cases (recording_self found).symm.trans isNode
      exact disposables effect keeps
    · exact clears.firm.clean other effect ⟨node, (recording_of_ne here).symm.trans isNode, keeps⟩
  · by_cases here : other = id
    · subst here
      obtain rfl := Option.some.inj ((recording_self found).symm.trans isNode)
      exact active node rfl
    · exact clears.firm.active other node ((recording_of_ne here).symm.trans isNode)
  · rw [← clears.size]
    exact size_recording ..
  · by_cases here : parent = id
    · subst here
      rw [kids_recording_self found] at member
      exact fewer kid member
    · rw [kids_recording_of_ne here] at member
      exact clears.kids parent member

/-- A record comes to hold less. -/
theorem lessen (clears : Clears start machine) (found : machine.nodes[id]? = some old) (fewer : new.kids ⊆ old.kids)
    (handles : ∀ handle, new.handle? = some handle → old.handle? = some handle) (disposables : new.disposables ⊆ old.disposables)
    (active : ∀ node, new = .conditional node → ∀ kid ∈ node.active, kid ∈ new.kids) : Clears start (recording machine id new) :=
  clears.record found (fun _ member => clears.kids id ((mem_kids found).2 (fewer member))) (fun handle isHandle => clears.firm.known id handle ⟨old, found, handles handle isHandle⟩)
    (fun effect member => clears.firm.clean id effect ⟨old, found, disposables member⟩) active

end Clears

/-- Handles are taken out. -/
theorem clears_unmount (clears : Clears start machine) (known : machine.document.Known handle) :
    Ensures breaks (edit (Document.unmount [handle] target)) machine fun _ after => after.nodes = machine.nodes ∧ Clears start after := by
  obtain ⟨document, ran, takenOut, _⟩ := clears.firm.forest.unmount_cases target (fun member among => List.mem_singleton.1 among ▸ known) (List.nodup_singleton handle)
  refine ensures_edit_of_done ran ⟨rfl, ⟨⟨clears.firm.forest.takenOut takenOut, fun id other owns => takenOut.known_iff.2 (clears.firm.known id other owns), clears.firm.clean, clears.firm.active⟩,
    clears.size, clears.kids, fun other isKnown => takenOut.known_iff.2 (clears.known other isKnown), clears.clean⟩⟩

/-- What was set up is taken back, and no code runs. -/
theorem clears_disposeAll {disposables : List Disposable} (clears : Clears start machine) (clean : ∀ effect, .effect effect ∈ disposables → Clean machine effect) :
    Ensures breaks (disposeAll calls disposables) machine fun _ after => after.nodes = machine.nodes ∧ Clears start after := by
  induction disposables generalizing machine with
  | nil => exact ⟨rfl, clears⟩
  | cons first rest ih =>
    cases first with
    | effect effect =>
      rw [disposeAll, ensures_bind]
      by_cases live : machine.graph.IsLive effect
      · obtain ⟨record, found, awake⟩ := live
        have cleanLater {other : Nat} (isClean : Clean machine other) : Clean { machine with graph := ended machine.graph effect } other := by
          intro later isEffect awakeLater
          by_cases here : other = effect
          · subst here
            cases (content?_ended_self found).symm.trans isEffect
            cases awakeLater
          · exact isClean later ((content?_ended_of_ne here).symm.trans isEffect) awakeLater
        unfold Ensures
        rw [run_dispose_of_clean found awake (clean effect (List.mem_cons_self ..) record found awake)]
        exact ih ⟨⟨clears.firm.forest, clears.firm.known, fun id other keeps => cleanLater (clears.firm.clean id other keeps), clears.firm.active⟩, clears.size, clears.kids, clears.known,
          fun other isClean => cleanLater (clears.clean other isClean)⟩ fun other member => cleanLater (clean other (List.mem_cons_of_mem _ member))
      · unfold Ensures
        rw [run_dispose_of_dead live]
        exact ih clears fun other member => clean other (List.mem_cons_of_mem _ member)
    | subscription subscription =>
      rw [disposeAll, ensures_bind]
      obtain ⟨document, ran, undisturbed, _⟩ := Document.undisturbed_unsubscribe subscription machine.document
      have known (handle : Handle) (isKnown : machine.document.Known handle) : document.Known handle := Nat.lt_of_lt_of_le isKnown undisturbed.size
      refine ensures_edit_of_done ran (ih ⟨⟨clears.firm.forest.congr undisturbed.parents undisturbed.children, fun id handle owns => known handle (clears.firm.known id handle owns),
        clears.firm.clean, clears.firm.active⟩, clears.size, clears.kids, fun handle isKnown => known handle (clears.known handle isKnown), clears.clean⟩ fun other member => ?_)
      exact clean other (List.mem_cons_of_mem _ member)

/-! Nodes of each kind. -/

section

variable (clearing : ∀ kid target (machine : Stage Memory), Firm machine → Shallow machine depth kid →
  Ensures breaks (calls.unmount kid target) machine fun _ after => Clears machine after)

include clearing

theorem clears_all {nodes : List NodeId} (clears : Clears start machine) (shallow : ∀ kid ∈ nodes, Shallow start depth kid) :
    Ensures breaks (nodes.forM fun kid => calls.unmount kid target) machine fun _ after => Clears start after := by
  induction nodes generalizing machine with
  | nil => exact clears
  | cons first rest ih =>
    rw [ensures_forM_cons]
    refine (clearing first target machine clears.firm (clears.shallow (shallow first (List.mem_cons_self ..)))).mono fun _ between cleared => ?_
    exact ih (clears.trans cleared) fun kid member => shallow kid (List.mem_cons_of_mem _ member)

theorem clears_entries {entries : Entries ListEntry} {keys : List String} (clears : Clears start machine) (shallow : ∀ entry ∈ entries, Shallow start depth entry.2.node) :
    Ensures breaks (unmountEntries calls target entries keys) machine fun _ after => Clears start after := by
  induction keys generalizing machine with
  | nil => exact clears
  | cons key rest ih =>
    rw [unmountEntries]
    split
    next entry found =>
      rw [ensures_bind]
      refine (clearing entry.node target machine clears.firm (clears.shallow (shallow _ (Entries.mem_of_get? found)))).mono fun _ between cleared => ?_
      exact ih (clears.trans cleared)
    next => exact ih clears

variable (firm : Firm machine) (shallow : Shallow machine (depth + 1) id)

include firm shallow

theorem clears_element {node : ElementNode (Code Memory)} (found : machine.nodes[id]? = some (.element node)) :
    Ensures breaks (unmountElement calls id node target) machine fun _ after => Clears machine after := by
  rw [unmountElement]
  split
  next => exact .refl firm
  next handle isHandle =>
    have known : machine.document.Known handle := firm.known id handle ⟨_, found, isHandle⟩
    rw [ensures_bind]
    refine (clears_all clearing (.refl firm) fun kid member => shallow kid ((mem_kids found).2 member)).mono fun _ between cleared => ?_
    rw [ensures_bind]
    refine (clears_unmount cleared (cleared.known handle known)).mono fun _ later ⟨_, cleared⟩ => ?_
    rw [ensures_node?]
    split
    next current isElement =>
      rw [ensures_bind, ensures_setNode, ensures_bind]
      have clean (effect : Nat) (member : .effect effect ∈ current.disposables) : Clean later effect := cleared.firm.clean id effect ⟨_, isElement, member⟩
      have emptied : Clears machine (recording later id (.element { current with disposables := [] })) :=
        cleared.lessen isElement (fun _ member => member) (fun _ isHandle => isHandle) nofun nofun
      refine (clears_disposeAll emptied clean).mono fun _ last ⟨nodes, cleared⟩ => ?_
      have foundLater : last.nodes[id]? = some (.element { current with disposables := [] }) := nodes ▸ recording_self isElement
      rw [ensures_modifyElement foundLater]
      exact cleared.lessen foundLater (fun _ member => member) nofun (fun _ member => member) nofun
    next => exact cleared

omit clearing shallow in
theorem clears_text {node : TextNode (Code Memory)} (found : machine.nodes[id]? = some (.text node)) :
    Ensures breaks (unmountText calls id node target) machine fun _ after => Clears machine after := by
  rw [unmountText]
  split
  next => exact .refl firm
  next handle isHandle =>
    rw [ensures_bind]
    refine (clears_unmount (.refl firm) (firm.known id handle ⟨_, found, isHandle⟩)).mono fun _ between taken => ?_
    obtain ⟨same, cleared⟩ := taken
    have foundBetween : between.nodes[id]? = some (.text node) := same ▸ found
    rw [ensures_bind, ensures_modifyText foundBetween, ensures_bind]
    have clean (effect : Nat) (member : .effect effect ∈ node.disposables) : Clean between effect := cleared.firm.clean id effect ⟨_, foundBetween, member⟩
    have emptied : Clears machine (recording between id (.text { node with disposables := [] })) :=
      cleared.lessen foundBetween (fun _ member => member) (fun _ isHandle => isHandle) (List.nil_subset _) fun _ same => by cases same
    refine (clears_disposeAll emptied clean).mono fun _ later disposed => ?_
    obtain ⟨nodes, cleared⟩ := disposed
    have foundLater : later.nodes[id]? = some (.text { node with disposables := [] }) := nodes ▸ recording_self foundBetween
    rw [ensures_modifyText foundLater]
    exact cleared.lessen foundLater (fun _ member => member) (fun _ isHandle => by cases isHandle) (fun _ member => member) fun _ same => by cases same

theorem clears_fragment {node : FragmentNode} (found : machine.nodes[id]? = some (.fragment node)) :
    Ensures breaks (unmountFragment calls id node target) machine fun _ after => Clears machine after := by
  rw [unmountFragment]
  split
  next => exact .refl firm
  next =>
    rw [ensures_bind]
    refine (clears_all clearing (.refl firm) fun kid member => shallow kid ((mem_kids found).2 (List.mem_reverse.1 member))).mono fun _ between cleared => ?_
    obtain ⟨_, foundBetween⟩ := cleared.exists_record found
    exact cleared.record foundBetween (fun kid member => (mem_kids found).2 member) nofun nofun nofun

theorem clears_component {node : ComponentNode (Code Memory)} (found : machine.nodes[id]? = some (.component node)) :
    Ensures breaks (unmountComponent calls id node target) machine fun _ after => Clears machine after := by
  rw [unmountComponent]
  split
  next => exact .refl firm
  next =>
    rw [ensures_bind, ensures_setNode, ensures_bind]
    have emptied : Clears machine (recording machine id (.component { node with child := none })) := (Clears.refl firm).lessen found nofun nofun nofun nofun
    refine (clears_all clearing emptied fun kid member => shallow kid ((mem_kids found).2 member)).mono fun _ between cleared => ?_
    obtain ⟨_, foundBetween⟩ := cleared.exists_record found
    exact cleared.record foundBetween nofun nofun nofun nofun

theorem clears_conditional {node : ConditionalNode (Code Memory)} (found : machine.nodes[id]? = some (.conditional node)) :
    Ensures breaks (unmountConditional calls id node target) machine fun _ after => Clears machine after := by
  rw [unmountConditional]
  split
  next => exact .refl firm
  next =>
    rw [ensures_bind, ensures_modifyConditional found, ensures_bind]
    have clean (effect : Nat) (member : .effect effect ∈ node.disposables) : Clean machine effect := firm.clean id effect ⟨_, found, member⟩
    have emptied : Clears machine (recording machine id (.conditional { node with disposables := [] })) := by
      refine (Clears.refl firm).lessen found (fun _ member => member) (fun _ isHandle => by cases isHandle) (List.nil_subset _) ?_
      rintro _ ⟨⟩
      exact firm.active id node found
    refine (clears_disposeAll emptied clean).mono fun _ between disposed => ?_
    obtain ⟨nodes, cleared⟩ := disposed
    have foundBetween : between.nodes[id]? = some (.conditional { node with disposables := [] }) := nodes ▸ recording_self found
    rw [ensures_node?, foundBetween]
    dsimp only
    rw [ensures_bind, ensures_modifyConditional foundBetween, ensures_bind]
    have hidden : Clears machine (recording between id (.conditional { node with disposables := [], active := none })) := by
      refine cleared.lessen foundBetween (fun _ member => member) (fun _ isHandle => by cases isHandle) (List.nil_subset _) ?_
      rintro _ ⟨⟩ kid member
      cases member
    refine (clears_all clearing hidden fun kid member => shallow kid ((mem_kids found).2 (firm.active id node found kid (Option.mem_toList.1 member)))).mono fun _ later cleared => ?_
    rw [modifyConditional, ensures_node?]
    split
    next current isConditional =>
      refine cleared.lessen isConditional (fun _ member => member) (fun _ isHandle => by cases isHandle) (fun _ member => member) ?_
      rintro _ ⟨⟩
      exact cleared.firm.active id current isConditional
    next => exact cleared

omit clearing firm shallow in
theorem clears_modifyList (clears : Clears start machine) (f : ListNode (Code Memory) → ListNode (Code Memory))
    (fewer : ∀ list, (Node.list (f list)).kids ⊆ (Node.list list).kids) (disposables : ∀ list, (f list).disposables ⊆ list.disposables) :
    Ensures breaks (modifyList id f) machine fun _ after => Clears start after := by
  rw [modifyList, list?, LawfulMonad.bind_assoc, ensures_node?]
  split
  next list found => exact clears.lessen found (fewer list) (fun _ isHandle => by cases isHandle) (disposables list) fun _ same => by cases same
  next => exact clears

omit firm shallow in
theorem clears_items (clears : Clears start machine) (shallow : Shallow start (depth + 1) id) :
    Ensures breaks (unmountItems calls id target) machine fun _ after => Clears start after := by
  rw [unmountItems, list?, LawfulMonad.bind_assoc, ensures_node?]
  split
  next list found =>
    rw [pure_bind, ensures_bind]
    refine (clears_modifyList clears (fun node => { node with keys := [], entries := [] }) (fun list kid member => ?_) fun _ _ member => member).mono fun _ between cleared => ?_
    · exact List.mem_append_right _ member
    · exact clears_entries clearing cleared fun entry member => shallow _ (clears.kids id ((mem_kids found).2 (List.mem_append_left _ (List.mem_map_of_mem member))))
  next => exact clears

theorem clears_list {list : ListNode (Code Memory)} (found : machine.nodes[id]? = some (.list list)) :
    Ensures breaks (unmountList calls id list target) machine fun _ after => Clears machine after := by
  rw [unmountList]
  split
  next => exact .refl firm
  next =>
    rw [ensures_bind, ensures_modifyList found, ensures_bind]
    have clean (effect : Nat) (member : .effect effect ∈ list.disposables) : Clean machine effect := firm.clean id effect ⟨_, found, member⟩
    have emptied : Clears machine (recording machine id (.list { list with disposables := [] })) :=
      (Clears.refl firm).lessen found (fun _ member => member) nofun nofun nofun
    refine (clears_disposeAll emptied clean).mono fun _ between ⟨nodes, cleared⟩ => ?_
    have foundBetween : between.nodes[id]? = some (.list { list with disposables := [] }) := nodes ▸ recording_self found
    have ends {last : Stage Memory} (cleared : Clears machine last) :
        Ensures breaks (unmountItems calls id target >>= fun _ => modifyList id fun node => { node with mounted := false }) last fun _ after => Clears machine after := by
      rw [ensures_bind]
      exact (clears_items clearing cleared shallow).mono fun _ _ cleared => clears_modifyList cleared _ (fun _ _ member => member) fun _ _ member => member
    rw [ensures_bind, ensures_list? foundBetween]
    dsimp only
    split
    next =>
      rw [ensures_bind, ensures_modifyList foundBetween, ensures_bind]
      have hidden : Clears machine (recording between id (.list { list with disposables := [], emptyMounted := false })) :=
        cleared.lessen foundBetween (fun _ member => member) nofun nofun nofun
      refine (clears_all clearing hidden fun kid member => shallow kid ((mem_kids found).2 ?_)).mono fun _ _ cleared => ends cleared
      exact List.mem_append_right _ member
    next => exact ends cleared

/-- A node is unmounted by calls that may nest as deep as what is below it is high. -/
theorem clears_node : Ensures breaks (Machine.unmount calls id target) machine fun _ after => Clears machine after := by
  rw [Machine.unmount, ensures_node?]
  split
  next found => exact clears_element clearing firm shallow found
  next found => exact clears_text firm found
  next found => exact clears_fragment clearing firm shallow found
  next found => exact clears_conditional clearing firm shallow found
  next found => exact clears_list clearing firm shallow found
  next found => exact clears_component clearing firm shallow found
  next => exact .refl firm

end

/-- Unmounting comes to its end if the calls may nest as deep as the tree is high. -/
theorem clears_upTo (depth : Nat) (id : NodeId) (target : Handle) (machine : Stage Memory) (firm : Firm machine) (shallow : Shallow machine depth id) :
    Ensures breaks ((Calls.upTo (Interpreter.rendering Memory) depth).unmount id target) machine fun _ after => Clears machine after := by
  induction depth generalizing id target machine with
  | zero => exact shallow.elim
  | succ depth ih => exact clears_node ih firm shallow

end ReactiveMarkup.Rendering
