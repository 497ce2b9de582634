import ReactiveMarkup.Proofs.SceneKids

/-! Elements, texts, fragments and components in a scene: once one of them is mounted, all that it shows is, and once
it is unmounted, nothing is left of what it had set up. -/

namespace ReactiveMarkup.Rendering

open ReactiveMarkup.Step ReactiveMarkup.Graph ReactiveMarkup.Machine Tidy Stocked

variable {Memory : Type} {α : Type} {scene inner : Scene} {start between machine after : Stage Memory} {id kid : NodeId}
  {effect : Nat} {task : Task (Code Memory)} {calls : Calls (Host.rendering Memory)} {old new : Node (Code Memory)}

/-- What mounting a node leaves behind. -/
abbrev Mounted (scene : Scene) (id : NodeId) (before after : Stage Memory) : Prop := Yields scene (· = id) before after ∧ On after id

/-- What unmounting a node leaves behind. -/
abbrev Unmounted (scene : Scene) (id : NodeId) (before after : Stage Memory) : Prop := Yields scene (· = id) before after ∧ ¬ On after id

theorem ensures_setNode {breaks : Breaks} {post : Unit → Stage Memory → Prop} :
    Ensures breaks (setNode id new) machine post ↔ post () (recording machine id new) := Iff.rfl

/-- What is right below a node is another one. -/
theorem Tidy.apart (tidy : Tidy scene machine) (found : machine.nodes[id]? = some old) (member : kid ∈ old.kids) : kid ≠ id := by
  rintro rfl
  exact tidy.upright.acyclic kid kid ((mem_kids found).2 member) .refl

theorem Hangs.opening {target : Handle} {anchor : Anchor} (hangs : Hangs scene machine kid target anchor) : Hangs (scene.opening id) machine kid target anchor :=
  hangs.congr rfl rfl fun _ _ _ guarded => guarded

/-- The only child of a node on its way. -/
abbrev Scene.handing (scene : Scene) (waits : scene.still id) (child : Option NodeId) : Scene := scene.guarding waits fun kid key => kid ∈ child ∧ key = none

section

variable (keeps : KeepsScenes calls) (tidy : Tidy scene machine) (movable : Movable scene machine id)

include tidy movable

theorem Tidy.opening_off (found : machine.nodes[id]? = some old) (off : old.isOn = false) : Tidy (scene.opening id) machine :=
  tidy.opening movable (inside_of_found found) fun _ _ drives =>
    tidy.undriven_of_off ((not_on_iff found).2 off) (fun isOpened => movable.rests (.inl isOpened)) drives

theorem Tidy.opening_unguided (found : machine.nodes[id]? = some old) (unguided : Unguided old) : Tidy (scene.opening id) machine :=
  tidy.opening movable (inside_of_found found) fun _ _ drives => tidy.undriven_of_unguided found unguided drives

theorem Tidy.settled_at (found : machine.nodes[id]? = some old) : Settled machine id old := tidy.arranged.settled id old found movable.rests

include keeps

/-! Fragments. -/

theorem mounts_fragment {node : FragmentNode} (calm : Calm scene machine) (found : machine.nodes[id]? = some (.fragment node)) (off : node.mounted = false)
    {target : Handle} {anchor : Anchor} (hangs : Hangs scene machine id target anchor) :
    Ensures .any (mountFragment calls id node target anchor) machine fun _ after => Mounted scene id machine after := by
  have opening := tidy.opening_off movable found off
  have station := movable.station tidy found
  have distinct := distinct_kids tidy.arranged found
  have shut := (tidy.settled_at movable found).shut off
  have begun : Underway (scene.opening id) scene (· = id) machine machine := .refl opening
  rw [mountFragment, ensures_bind]
  refine (station.mounts_chain keeps target calm.opening node.children anchor begun distinct found hangs.opening (fun front kid back split => ⟨front, back, split, rfl, rfl⟩)
    shut).mono fun _ between moves => ?_
  have foundBetween := moves.record.trans found
  have written : Underway (scene.opening id) scene (· = id) machine (recording between id (.fragment { node with mounted := true })) :=
    station.rewrite moves.underway foundBetween rfl trivial trivial distinct (fun _ member => .inl member) (fun isOpened => absurd (.inl isOpened) movable.rests)
      (.inl ⟨.inr rfl, rfl⟩) (fun _ => Iff.rfl) fun stead here => .of_berth (moves.underway.tidy.placed stead here) foundBetween rfl fun _ =>
        .inr ⟨target, anchor, moves.frame.hung id target anchor (.inr station.waits) hangs.opening⟩
  refine ensures_setNode.2 ⟨written.close tidy movable (recording_self foundBetween) (.mounted rfl (fun kid member => ?_) trivial) nofun, (on_recording_self foundBetween).2 rfl⟩
  exact (on_recording_of_ne (tidy.apart found member)).2 ((moves.moved kid member).2 trivial)

theorem unmounts_fragment {node : FragmentNode} (found : machine.nodes[id]? = some (.fragment node)) {target : Handle}
    (hangs : ∃ anchor, Hangs scene machine id target anchor) :
    Ensures .any (unmountFragment calls id node target) machine fun _ after => Unmounted scene id machine after := by
  have opening := tidy.opening_unguided movable found trivial
  have station := movable.station tidy found
  unfold unmountFragment
  split
  next isOff =>
    have off : node.mounted = false := by simpa using isOff
    exact ⟨.refl tidy, (not_on_iff found).2 off⟩
  next =>
    have distinct := distinct_kids tidy.arranged found
    obtain ⟨anchor, hangs⟩ := hangs
    have begun : Underway (scene.opening id) scene (· = id) machine machine := .refl opening
    rw [ensures_bind]
    refine (station.unmounts_all keeps target node.children.reverse begun found hangs.opening fun kid member => ?_).mono fun _ between moves => ?_
    · obtain ⟨front, back, split⟩ := List.append_of_mem (List.mem_reverse.1 member)
      exact ⟨_, front, back, split, rfl, rfl⟩
    have foundBetween := moves.record.trans found
    have written : Underway (scene.opening id) scene (· = id) machine (recording between id (.fragment { node with mounted := false })) :=
      station.rewrite moves.underway foundBetween rfl trivial trivial distinct (fun _ member => .inl member)
        (fun isOpened => absurd (.inl isOpened) movable.rests) (.inl ⟨.inr rfl, rfl⟩) (fun _ => Iff.rfl)
        fun stead here => .of_berth (moves.underway.tidy.placed stead here) foundBetween rfl nofun
    refine ensures_setNode.2 ⟨written.close tidy movable (recording_self foundBetween) (.unmounted rfl (fun kid member on => ?_) trivial) nofun, fun on => ?_⟩
    · exact (moves.moved kid (List.mem_reverse.2 member)).1 ((on_recording_of_ne (tidy.apart found member)).1 on)
    · cases (on_recording_self foundBetween).1 on

/-! Components. -/

theorem mounts_component {node : ComponentNode (Code Memory)} (calm : Calm scene machine) (found : machine.nodes[id]? = some (.component node)) (off : node.mounted = false)
    {target : Handle} {anchor : Anchor} (hangs : Hangs scene machine id target anchor) :
    Ensures .any (mountComponent calls id node target anchor) machine fun _ after => Mounted scene id machine after := by
  have opening := tidy.opening_off movable found off
  have station := movable.station tidy found
  have begun : Underway (scene.opening id) scene (· = id) machine machine := .refl opening
  have childless : node.child = none := (tidy.settled_at movable found).bare off
  obtain ⟨view, isView⟩ : ∃ code, node.component.view = .host code := tidy.upright.formed id _ found
  rw [mountComponent, ensures_bind]
  refine (keeps.control _ _ opening calm.opening).mono fun context controlled strays => ?_
  have foundControlled := (strays.frame.still id station.waits).trans found
  have sofar : Underway (scene.opening id) scene (· = id) machine controlled := begun.within station strays.toUnderway fun _ => False.elim
  have isCode : renderView calls node.component.view context node.slots = calls.view view context node.slots := by
    rw [isView]
    rfl
  rw [isCode, ensures_bind, ensures_holding]
  have held : Tidy (scene.opening id) { controlled with held := [] ++ controlled.held } := sofar.tidy.carry rfl rfl rfl rfl rfl
  refine (keeps.view view context node.slots held).mono fun child made viewed => ?_
  obtain ⟨yields, brings⟩ := viewed
  have foundMade := (yields.frame.still id station.waits).trans foundControlled
  have making : Yields (scene.opening id) (fun _ => False) controlled { made with held := controlled.held } := yields.carry rfl rfl rfl rfl rfl rfl rfl rfl
  have later : Underway (scene.opening id) scene (· = id) machine { made with held := controlled.held } := sofar.within station making fun _ => False.elim
  have fresh (kid : NodeId) (member : kid ∈ child) : controlled.nodes.size ≤ kid ∧ kid < made.nodes.size := (brings kid member).fresh
  have isNew (kid : NodeId) (member : kid ∈ child) : machine.nodes.size ≤ kid := Nat.le_trans sofar.frame.grows.size (fresh kid member).1
  have handing : Station scene ((scene.opening id).handing station.waits child) id machine := station.guarding fun kid key isChild => .inr (isNew kid isChild.1)
  have handed : Underway ((scene.opening id).handing station.waits child) scene (· = id) machine { made with held := controlled.held } := by
    refine { later with tidy := later.tidy.guard station.waits fun stead here kid key isChild => ?_ }
    obtain ⟨member, rfl⟩ := isChild
    obtain ⟨unclaimed, _, rootless, _, wardless⟩ := (brings kid member).spare
    refine ⟨(fresh kid member).2, rootless, fun parent above => absurd above (unclaimed parent), fun node target anchor home place foundNode puts => ?_, wardless stead here,
      fun _ => And.right⟩
    exact absurd (Puts.mem_kids puts) fun above => unclaimed id ((mem_kids foundNode).2 above)
  have hangsMade : Hangs ((scene.opening id).handing station.waits child) { made with held := controlled.held } id target anchor := by
    have moved := making.frame.hung id target anchor (.inr station.waits) (strays.frame.hung id target anchor (.inr station.waits) hangs.opening)
    exact moved.congr rfl rfl fun _ _ _ => .inl
  have mounts : Ensures .any (child.toList.forM fun child => holding [.node child] (calls.mount child target anchor)) { made with held := controlled.held } fun _ after =>
      Underway ((scene.opening id).handing station.waits child) scene (· = id) machine after ∧ after.nodes[id]? = some (.component node) ∧
        Hangs ((scene.opening id).handing station.waits child) after id target anchor ∧ ∀ kid ∈ child, On after kid ∧ kid < after.nodes.size ∧
        ¬ Below after kid id ∧ kid ∉ after.world.roots ∧ ∀ parent, kid ∉ kids after parent := by
    cases child with
    | none => exact ⟨handed, foundMade, hangsMade, fun kid member => absurd member (Option.not_mem_none kid)⟩
    | some kid =>
      obtain ⟨unclaimed, off, rootless, _⟩ := (brings kid rfl).spare
      obtain ⟨_, isThere⟩ := fresh kid rfl
      have ours : Ours machine id kid := .inr (isNew kid rfl)
      have only : ∀ parent, kid ∈ kids made parent → parent = id := fun parent member => absurd member (unclaimed parent)
      rw [Option.toList_some, ensures_forM_cons, ensures_holding]
      have heldLater : Underway ((scene.opening id).handing station.waits (some kid)) scene (· = id) machine { made with held := [.node kid] ++ controlled.held } :=
        handed.carry rfl rfl rfl rfl rfl rfl rfl rfl
      have above : Hangs ((scene.opening id).handing station.waits (some kid)) { made with held := [.node kid] ++ controlled.held } id target anchor :=
        hangsMade.congr rfl rfl fun _ _ _ guarded => guarded
      have arrives : Hangs ((scene.opening id).handing station.waits (some kid)) { made with held := [.node kid] ++ controlled.held } kid target anchor :=
        Hangs.ward above (.inr ⟨rfl, rfl, rfl⟩)
      refine (handing.mount ours keeps heldLater only target calm.opening isThere off arrives).mono fun _ after mounted => ?_
      obtain ⟨done, mounting, on⟩ := mounted
      refine ⟨done.carry rfl rfl rfl rfl rfl rfl rfl rfl, (mounting.frame.still id station.waits).trans foundMade, ?_, ?_⟩
      · exact (mounting.frame.hung id target anchor (.inr station.waits) above).congr rfl rfl fun _ _ _ guarded => guarded
      rintro _ ⟨⟩
      refine ⟨on, Nat.lt_of_lt_of_le isThere mounting.frame.grows.size, fun below => ?_, mounting.frame.roots ▸ rootless, fun parent member => ?_⟩
      · have old := Nat.lt_of_lt_of_le (inside_of_found found) strays.frame.grows.size
        have makingHeld : Yields (scene.opening id) (fun _ => False) controlled { made with held := [.node kid] ++ controlled.held } :=
          yields.carry rfl rfl rfl rfl rfl rfl rfl rfl
        exact absurd old (Nat.not_lt.2 ((makingHeld.frame.grows.trans mounting.frame.grows).new_of_below (fresh kid rfl).1 below))
      · obtain old | new := mounting.frame.grows.kids parent kid member
        · exact unclaimed parent old
        · exact absurd isThere (Nat.not_lt.2 new)
  rw [ensures_bind]
  refine mounts.mono fun _ last mounted => ?_
  obtain ⟨lastUnderway, foundLast, hangsLast, shown⟩ := mounted
  have foundWritten : (recording last id (.component { node with child, mounted := true })).nodes[id]? = _ := recording_self foundLast
  have written : Underway ((scene.opening id).handing station.waits child) scene (· = id) machine (recording last id (.component { node with child, mounted := true })) := by
    refine handing.rewrite lastUnderway foundLast rfl ⟨view, isView⟩ trivial ?_ (fun kid member => .inr ?_) (fun isOpened => absurd (.inl isOpened) movable.rests)
      (.inl ⟨.inr rfl, rfl⟩) (fun _ => Iff.rfl) fun stead here => ⟨.inl fun _ _ kid _ _ puts => ?_, fun kid member => .inr ⟨none, .inr ⟨rfl, Option.mem_toList.1 member, rfl⟩⟩,
        fun kid key guarded _ _ _ _ puts => ?_, fun _ => .inr ⟨target, anchor, hangsLast⟩,
        (fun _ isHandle => by cases isHandle), (fun _ isHandle => by cases isHandle), fun _ same => by cases same⟩
    · cases child <;> simp [Node.kids]
    · obtain ⟨_, rest⟩ := shown kid (Option.mem_toList.1 member)
      exact ⟨isNew kid (Option.mem_toList.1 member), rest⟩
    · exact absurd (childless ▸ puts.1 : kid ∈ none) (Option.not_mem_none kid)
    · obtain ⟨member, rfl, rfl⟩ := puts
      obtain guarded | ⟨_, _, rfl⟩ := guarded
      · exact absurd guarded ((brings kid member).spare.wardless stead here id key)
      · exact ⟨rfl, rfl⟩
  have arrived : Underway (scene.opening id) scene (· = id) machine (recording last id (.component { node with child, mounted := true })) := by
    refine { written with tidy := written.tidy.unguard fun stead here kid key isChild => .inl fun target anchor above => ?_ }
    obtain ⟨member, rfl⟩ := isChild
    exact .kid above foundWritten ⟨member, rfl, rfl⟩
  refine ensures_setNode.2 ⟨arrived.close tidy movable foundWritten (.mounted rfl (fun kid member => ?_) trivial) (fun _ _ _ isHandle => by cases isHandle),
    (on_recording_self foundLast).2 rfl⟩
  refine (on_recording_of_ne ?_).2 (shown kid member).1
  rintro rfl
  exact absurd (inside_of_found found) (Nat.not_lt.2 (isNew kid member))

theorem unmounts_component {node : ComponentNode (Code Memory)} (found : machine.nodes[id]? = some (.component node)) {target : Handle}
    (hangs : ∃ anchor, Hangs scene machine id target anchor) :
    Ensures .any (unmountComponent calls id node target) machine fun _ after => Unmounted scene id machine after := by
  have opening := tidy.opening_unguided movable found trivial
  have station := movable.station tidy found
  have formed : ∃ code, node.component.view = .host code := tidy.upright.formed id _ found
  obtain ⟨anchor, hangs⟩ := hangs
  unfold unmountComponent
  split
  next isOff =>
    have off : node.mounted = false := by simpa using isOff
    exact ⟨.refl tidy, (not_on_iff found).2 off⟩
  next =>
    have isKid {kid : NodeId} (isChild : kid ∈ node.child) : kid ∈ kids machine id := (mem_kids found).2 (Option.mem_toList.2 isChild)
    have handing : Station scene ((scene.opening id).handing station.waits node.child) id machine := station.guarding fun kid key isChild => .inl (isKid isChild.1)
    have handed : Underway ((scene.opening id).handing station.waits node.child) scene (· = id) machine machine := by
      refine .refl (opening.guard station.waits fun stead here kid key isChild => ?_)
      obtain ⟨isChild, rfl⟩ := isChild
      refine ⟨tidy.upright.known id kid (isKid isChild), fun isRoot => (tidy.arranged.roots kid isRoot).2 id (isKid isChild), tidy.only (isKid isChild),
        fun _ _ _ _ _ foundNode puts => ?_, fun other again guarded => ?_, fun _ => And.right⟩
      · cases found.symm.trans foundNode
        exact puts.2
      · obtain rfl := ((tidy.placed stead here).wards other kid again guarded).above id (isKid isChild)
        exact movable.rests (.inr (scene.guards id kid again guarded))
    have cleared : Underway ((scene.opening id).handing station.waits node.child) scene (· = id) machine (recording machine id (.component { node with child := none })) :=
      handing.rewrite handed found rfl formed trivial List.nodup_nil nofun (fun isOpened => absurd (.inl isOpened) movable.rests) (.inr rfl) (fun _ => Iff.rfl)
        fun stead here => ⟨.inl fun _ _ kid _ _ puts => .inr ⟨none, .inr ⟨rfl, puts.1, rfl⟩, puts.2⟩, nofun, fun _ _ _ _ _ _ _ puts => absurd puts.1 (Option.not_mem_none _), .inl,
          nofun, nofun, fun _ same => by cases same⟩
    have foundCleared : (recording machine id (.component { node with child := none })).nodes[id]? = _ := recording_self found
    have hangsCleared : Hangs ((scene.opening id).handing station.waits node.child) (recording machine id (.component { node with child := none })) id target anchor :=
      handing.hangs_recording handed found (hangs.congr rfl rfl fun _ _ _ => .inl)
    have hides : Ensures .any (node.child.toList.forM fun child => calls.unmount child target) (recording machine id (.component { node with child := none })) fun _ after =>
        Underway ((scene.opening id).handing station.waits node.child) scene (· = id) machine after ∧ after.nodes[id]? = some (.component { node with child := none }) ∧
          ∀ kid ∈ node.child, ¬ On after kid := by
      cases isChild : node.child with
      | none =>
        rw [isChild] at cleared
        exact ⟨cleared, foundCleared, nofun⟩
      | some kid =>
        rw [isChild] at handing cleared hangsCleared
        have only (parent : NodeId) (above : kid ∈ kids (recording machine id (.component { node with child := none })) parent) : parent = id := by
          by_cases here : parent = id
          · exact here
          · exact tidy.only (isKid isChild) parent (kids_recording_of_ne here ▸ above)
        rw [Option.toList_some, ensures_forM_cons]
        refine (handing.unmount (.inl (isKid isChild)) keeps cleared only target ⟨anchor, Hangs.ward hangsCleared (.inr ⟨rfl, rfl, rfl⟩)⟩).mono fun _ after ⟨later, yields, off⟩ =>
          ⟨later, (yields.frame.still id station.waits).trans foundCleared, ?_⟩
        rintro _ ⟨⟩
        exact off
    rw [ensures_bind, ensures_setNode, ensures_bind]
    refine hides.mono fun _ between ⟨later, foundBetween, off⟩ => ?_
    have gone : Underway (scene.opening id) scene (· = id) machine between := by
      refine { later with tidy := later.tidy.unguard fun stead here kid key isChild => .inr ?_ }
      have clear := station.clear (.inl (isKid isChild.1)) later.frame.grows
      exact ⟨clear, later.tidy.dark clear (off kid isChild.1)⟩
    have written : Underway (scene.opening id) scene (· = id) machine (recording between id (.component { node with child := none, mounted := false })) :=
      station.rewrite gone foundBetween rfl formed trivial List.nodup_nil nofun (fun isOpened => absurd (.inl isOpened) movable.rests) (.inl ⟨.inr rfl, rfl⟩) (fun _ => Iff.rfl)
        fun stead here => .of_berth (gone.tidy.placed stead here) foundBetween rfl nofun
    refine ensures_setNode.2 ⟨written.close tidy movable (recording_self foundBetween) (.unmounted rfl nofun rfl) nofun, fun on => ?_⟩
    cases (on_recording_self foundBetween).1 on

end

end ReactiveMarkup.Rendering
