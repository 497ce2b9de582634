import ReactiveMarkup.Proofs.SceneHandles

/-! Trees that are made in a scene: their nodes are new, and none of them is mounted. -/

namespace ReactiveMarkup.Rendering

open ReactiveMarkup.Step ReactiveMarkup.Graph ReactiveMarkup.Machine Tidy Stocked

variable {Memory : Type} {about : NodeId → Prop} {scene : Scene} {start before middle after machine : Stage Memory} {id : NodeId}

section

variable {new : Node (Code Memory)}

/-- A machine with another node. -/
abbrev pushing (machine : Stage Memory) (new : Node (Code Memory)) : Stage Memory := { machine with nodes := machine.nodes.push new }

theorem pushing_self : (pushing machine new).nodes[machine.nodes.size]? = some new := Array.getElem?_push_size

theorem pushing_of_ne {other : NodeId} (apart : other ≠ machine.nodes.size) : (pushing machine new).nodes[other]? = machine.nodes[other]? := by
  rw [pushing, Array.getElem?_push, if_neg apart]

theorem kids_pushing_of_ne {other : NodeId} (apart : other ≠ machine.nodes.size) : kids (pushing machine new) other = kids machine other := by
  rw [kids, pushing_of_ne apart, kids]

theorem kids_pushing_self : kids (pushing machine new) machine.nodes.size = new.kids := by rw [kids, pushing_self, Option.elim_some]

theorem on_pushing (off : new.isOn = false) (other : NodeId) : On (pushing machine new) other ↔ On machine other := by
  by_cases here : other = machine.nodes.size
  · subst here
    rw [on_iff pushing_self, off]
    exact ⟨nofun, fun on => absurd on.lt_size (Nat.lt_irrefl _)⟩
  · rw [On, pushing_of_ne here, On]

theorem keeps_pushing (bare : new.Bare) (other : NodeId) (disposable : Disposable) :
    Keeps (pushing machine new) other disposable ↔ Keeps machine other disposable := by
  by_cases here : other = machine.nodes.size
  · subst here
    rw [keeps_iff pushing_self, bare.disposables]
    refine ⟨nofun, fun ⟨node, found, _⟩ => ?_⟩
    rw [Array.getElem?_eq_none (Nat.le_refl _)] at found
    cases found
  · rw [Keeps, pushing_of_ne here, Keeps]

/-- A new node leaves the places of the others as they are. -/
theorem Hangs.push {target : Handle} {anchor : Anchor} (hangs : Hangs scene machine id target anchor) : Hangs scene (pushing machine new) id target anchor :=
  hangs.carry rfl (fun _ _ found _ _ _ _ _ puts above => .kid above ((pushing_of_ne (Nat.ne_of_lt (Array.getElem?_eq_some_iff.1 found).1)).trans found) puts)
    fun _ _ _ guarded _ _ above => .ward above guarded

theorem Placed.push {stead : Stead} (placed : Placed scene stead machine) (here : scene.stead = some stead) (arranged : Arranged scene machine) (bare : new.Bare) (off : new.isOn = false)
    (spare : ∀ kid ∈ new.kids, Spare scene machine kid) : Placed scene stead (pushing machine new) := by
  have old {other : NodeId} {handle : Handle} (owns : Owns (pushing machine new) other handle) : Owns machine other handle := by
    obtain ⟨node, found, isHandle⟩ := owns
    by_cases same : other = machine.nodes.size
    · subst same
      have on : On (pushing machine new) machine.nodes.size := Owns.on ⟨node, found, isHandle⟩
      exact absurd ((on_pushing off _).1 on).lt_size (Nat.lt_irrefl _)
    · exact ⟨node, (pushing_of_ne same).symm.trans found, isHandle⟩
  refine placed.shift 0 rfl rfl (fun holder kid key guarded => ?_) (fun _ _ _ _ hangs => hangs.push) (fun other on => .inl ((on_pushing off other).1 on))
    (fun _ _ owns => .inl (old owns)) (fun other handle owns => .inl ?_) (fun _ _ owns rests => .inl ⟨rests, old owns⟩) (fun _ kept => kept.imp_right ?_) fun effect task drives => ?_
  · obtain ⟨known, rootless, above, place, sole⟩ := placed.wards holder kid key guarded
    refine ⟨by rw [Array.size_push]; exact Nat.lt_succ_of_lt known, rootless, fun parent member => ?_, fun node target anchor home place' found puts => ?_, sole⟩
    · by_cases same : parent = machine.nodes.size
      · subst same
        rw [kids_pushing_self] at member
        exact absurd guarded ((spare kid member).wardless stead here holder key)
      · exact above parent (kids_pushing_of_ne same ▸ member)
    · have inside := arranged.inside holder (.inr (scene.guards holder kid key guarded))
      exact place node target anchor home place' ((pushing_of_ne (Nat.ne_of_lt inside)).symm.trans found) puts
  · obtain ⟨node, found, isHandle⟩ := owns
    exact ⟨node, (pushing_of_ne (Nat.ne_of_lt (Array.getElem?_eq_some_iff.1 found).1)).trans found, isHandle⟩
  · exact fun ⟨other, keeps⟩ => ⟨other, (keeps_pushing bare other _).2 keeps⟩
  · have fits := placed.fits effect task drives
    cases task with
    | branches => exact Hangs.push fits
    | items =>
      obtain ⟨list, found, hangs⟩ := fits
      exact ⟨list, (pushing_of_ne (Nat.ne_of_lt (Array.getElem?_eq_some_iff.1 found).1)).trans found, hangs.push⟩
    | text =>
      obtain ⟨target, anchor, hangs⟩ := fits
      exact ⟨target, anchor, hangs.push⟩
    | property | classes => exact fits
    | host => trivial

/-- A new node is above nodes that nothing else is above. -/
theorem Tidy.push (tidy : Tidy scene machine) (upright : Upright (pushing machine new)) (bare : new.Bare) (off : new.isOn = false) (distinct : new.kids.Nodup)
    (spare : ∀ kid ∈ new.kids, Spare scene machine kid) :
    Tidy scene (pushing machine new) := by
  have arranged := tidy.arranged
  have kids_cases {parent kid : NodeId} (member : kid ∈ kids (pushing machine new) parent) :
      kid ∈ kids machine parent ∨ (parent = machine.nodes.size ∧ kid ∈ new.kids) := by
    by_cases here : parent = machine.nodes.size
    · subst here
      exact .inr ⟨rfl, kids_pushing_self ▸ member⟩
    · exact .inl (kids_pushing_of_ne here ▸ member)
  have old_of_found {other : NodeId} {node : Node (Code Memory)} (found : machine.nodes[other]? = some node) : other ≠ machine.nodes.size :=
    Nat.ne_of_lt (Array.getElem?_eq_some_iff.1 found).1
  have fewer : (∀ other disposable, Keeps (pushing machine new) other disposable ↔ Keeps machine other disposable) := keeps_pushing bare
  refine ⟨upright, ⟨?_, fun parent => ?_, fun root isRoot => ?_, fun kid isBusy => ?_, fun kid isOpened parent member => ?_, fun other node found rests => ?_⟩,
    ⟨?_, ?_, fun effect stock => ?_, tidy.stocked.scripts⟩, ⟨fun effect task drives => ?_, tidy.driven.sole⟩,
    fun stead here => (tidy.placed stead here).push here arranged bare off spare⟩
  · intro parent rival kid member again
    obtain below | ⟨rfl, isNew⟩ := kids_cases member
    · obtain belowToo | ⟨rfl, isNew⟩ := kids_cases again
      · exact arranged.unique parent rival kid below belowToo
      · exact absurd below ((spare kid isNew).unclaimed parent)
    · obtain belowToo | ⟨rfl, _⟩ := kids_cases again
      · exact absurd belowToo ((spare kid isNew).unclaimed rival)
      · rfl
  · by_cases here : parent = machine.nodes.size
    · rw [here, kids_pushing_self]
      exact distinct
    · rw [kids_pushing_of_ne here]
      exact arranged.distinct parent
  · obtain ⟨there, unclaimed⟩ := arranged.roots root isRoot
    refine ⟨by rw [Array.size_push]; exact Nat.lt_succ_of_lt there, fun parent member => ?_⟩
    obtain below | ⟨_, isNew⟩ := kids_cases member
    · exact unclaimed parent below
    · exact (spare root isNew).rootless isRoot
  · rw [Array.size_push]
    exact Nat.lt_succ_of_lt (arranged.inside kid isBusy)
  · obtain below | ⟨_, isNew⟩ := kids_cases member
    · exact arranged.upward kid isOpened parent below
    · exact absurd isOpened (spare kid isNew).idle
  · by_cases here : other = machine.nodes.size
    · subst here
      cases pushing_self.symm.trans found
      refine ⟨fun _ kid member on => ?_, fun _ => bare, fun on => ?_, fun on => ?_⟩
      · exact (spare kid member).off ((on_pushing off kid).1 on)
      · cases off.symm.trans on
      · cases off.symm.trans on
    · rw [pushing_of_ne here] at found
      exact (arranged.settled other node found rests).of_on (fun kid _ => on_pushing off kid) (fun effect => (fewer other _).2) rfl
  · simp only [fewer]
    exact tidy.stocked.apart
  · simp only [fewer]
    exact tidy.stocked.loose
  · simp only [fewer] at stock
    exact tidy.stocked.tame effect stock
  · obtain ⟨kept, paused, governs⟩ := tidy.driven.steers effect task drives
    refine ⟨kept.imp_right fun ⟨id, isKept, subjects⟩ => ⟨id, (fewer id _).2 isKept, subjects⟩, paused, ?_⟩
    · cases task with
      | branches subject target anchor =>
        obtain ⟨node, found, mounted, presents, selection, follows⟩ := governs
        exact ⟨node, (pushing_of_ne (old_of_found found)).trans found, mounted, fun kid member => (on_pushing off kid).trans (presents kid member), selection,
          follows.selected, follows.active, follows.current⟩
      | items subject target =>
        obtain ⟨list, found, mounted, keyed, entries, empty, distinct, complete⟩ := governs
        exact ⟨list, (pushing_of_ne (old_of_found found)).trans found, mounted, keyed, fun entry member => (on_pushing off _).2 (entries entry member),
          fun none member => (on_pushing off none).trans (empty none member), distinct, complete⟩
      | text subject accessor =>
        obtain ⟨node, found, shown⟩ := governs
        exact ⟨node, (pushing_of_ne (old_of_found found)).trans found, shown⟩
      | property | classes | host => trivial

theorem Frame.push (frame : Frame scene about start machine) (arranged : Arranged scene machine) (grows : Grows start (pushing machine new)) (bare : new.Bare)
    (off : new.isOn = false) : Frame scene about start (pushing machine new) := by
  refine ⟨frame.steady, grows, fun other isBusy => ?_, fun other isStill => ?_, fun other inside apart waits => ?_, frame.spared, frame.roots, frame.effects,
    fun other effect isKept => frame.stock other effect ((keeps_pushing bare other _).1 isKept), fun other target anchor busy hangs => (frame.hung other target anchor busy hangs).push,
    frame.lingers⟩
  · rw [pushing_of_ne (Nat.ne_of_lt (arranged.inside other isBusy))]
    exact frame.busy other isBusy
  · rw [pushing_of_ne (Nat.ne_of_lt (arranged.inside other (.inr isStill)))]
    exact frame.still other isStill
  · exact (on_pushing off other).trans (frame.loose other inside apart waits)

end

/-- What making nodes in a scene leaves behind. -/
structure Makes (scene : Scene) (before after : Stage Memory) (made : List NodeId) : Prop where
  built : Built before after made
  tidy : Tidy scene after
  graph : after.graph = before.graph
  frame : Frame scene (fun _ => False) before after
  spare : ∀ id ∈ made, Spare scene after id
  distinct : made.Nodup

namespace Makes

variable {made more : List NodeId}

theorem refl (tidy : Tidy scene machine) : Makes scene machine machine [] :=
  ⟨.refl tidy.upright, tidy, rfl, .refl machine, nofun, .nil⟩

/-- What has been made is as it was when more is made. -/
theorem spare_later (makes : Makes scene before middle made) (frame : Frame scene (fun _ => False) middle after) : ∀ id ∈ made, Spare scene after id := by
  intro id member
  obtain ⟨unclaimed, off, rootless, idle, wardless⟩ := makes.spare id member
  have inside := (makes.built.fresh id member).2
  refine ⟨fun parent below => ?_, fun on => off ?_, frame.roots ▸ rootless, idle, wardless⟩
  · exact (frame.grows.kids parent id below).elim (unclaimed parent) fun new => absurd inside (Nat.not_lt.2 new)
  · exact (frame.loose id inside (fun never => never) fun parent below => absurd below (unclaimed parent)).1 on

theorem append (first : Makes scene before middle made) (second : Makes scene middle after more) : Makes scene before after (made ++ more) := by
  refine ⟨first.built.append second.built, second.tidy, second.graph.trans first.graph, first.frame.trans second.frame fun _ never => never.elim, fun id member => ?_, ?_⟩
  · exact (List.mem_append.1 member).elim (first.spare_later second.frame id) (second.spare id)
  · refine List.nodup_append.2 ⟨first.distinct, second.distinct, fun id member other memberToo => ?_⟩
    exact Nat.ne_of_lt (Nat.lt_of_lt_of_le (first.built.fresh id member).2 (second.built.fresh other memberToo).1)

/-- A node is made of those made before. -/
theorem push (makes : Makes scene before machine made) {new : Node (Code Memory)} (formed : Formed new) (kids : new.kids = made)
    (fair : Fair machine.graph new) (moving : ∀ selection, ¬ Stuck selection new) (bare : new.Bare) (off : new.isOn = false) :
    Makes scene before (pushing machine new) [machine.nodes.size] := by
  have built := makes.built.push formed (fun kid member => kids ▸ member) fair moving
  have tidy : Tidy scene (pushing machine new) :=
    makes.tidy.push built.alters.upright bare off (kids ▸ makes.distinct) fun kid member => makes.spare kid (kids ▸ member)
  refine ⟨built, tidy, makes.graph, makes.frame.push makes.tidy.arranged built.alters.grows bare off, fun id member => ?_, List.nodup_singleton _⟩
  cases List.mem_singleton.1 member
  refine ⟨fun parent below => ?_, fun on => absurd ((on_pushing off _).1 on).lt_size (Nat.lt_irrefl _),
    fun isRoot => absurd (makes.tidy.arranged.roots _ isRoot).1 (Nat.lt_irrefl _), fun isOpened => absurd (makes.tidy.arranged.inside _ (.inl isOpened)) (Nat.lt_irrefl _),
    fun stead here holder key guarded => absurd ((makes.tidy.placed stead here).wards holder _ key guarded).known (Nat.lt_irrefl _)⟩
  by_cases here : parent = machine.nodes.size
  · subst here
    exact built.alters.upright.acyclic _ _ below .refl
  · rw [kids_pushing_of_ne here] at below
    exact absurd (makes.tidy.upright.known parent _ below) (Nat.lt_irrefl _)

theorem yields (makes : Makes scene before after made) : Yields scene (fun _ => False) before after :=
  ⟨makes.tidy, makes.frame, fun _ => by rw [makes.graph]; exact .refl _, fun _ empty => makes.graph ▸ empty⟩

theorem brings (makes : Makes scene before after made) {child : NodeId} (member : child ∈ made) : Brings scene before after child :=
  ⟨makes.yields, makes.built.fresh child member, makes.spare child member⟩

end Makes

mutual
theorem makes_tree : (tree : Tree Memory) → (machine : Stage Memory) → Tidy scene machine →
    ∃ child after, tree.build.run machine = (.done child, after) ∧ Makes scene machine after [child]
  | .element tag attributes properties events child, machine, tidy => by
    obtain ⟨child, between, ran, makes⟩ := makes_optional child machine tidy
    refine ⟨_, _, run_bind_of_done ran, makes.push ?_ rfl trivial (fun _ stuck => stuck) rfl rfl⟩
    intro property member
    obtain ⟨⟨name, source⟩, _, rfl⟩ := List.mem_map.1 member
    cases source <;> trivial
  | .text content, machine, tidy => by
    refine ⟨_, _, rfl, (Makes.refl tidy).push ?_ rfl trivial (fun _ stuck => stuck) rfl rfl⟩
    cases content <;> trivial
  | .fragment children, machine, tidy => by
    obtain ⟨children, between, ran, makes⟩ := makes_all children machine tidy
    exact ⟨_, _, run_bind_of_done ran, makes.push trivial rfl trivial (fun _ stuck => stuck) trivial rfl⟩
  | .conditional branches otherwise, machine, tidy => by
    obtain ⟨branches, between, ran, makes, queries⟩ := makes_branches branches machine tidy
    obtain ⟨otherwise, later, ranLater, makesLater⟩ := makes_optional otherwise between makes.tidy
    refine ⟨_, _, (run_bind_of_done ran).trans (run_bind_of_done ranLater),
      (makes.append makesLater).push queries rfl ⟨.otherwise, .inl rfl, .inl rfl⟩ ?_ ⟨rfl, rfl, rfl⟩ rfl⟩
    rintro _ ⟨never, _⟩
    cases never
  | .list items strict track each empty, machine, tidy => by
    obtain ⟨empty, between, ran, makes⟩ := makes_optional empty machine tidy
    refine ⟨_, _, run_bind_of_done ran, makes.push ?_ rfl nofun (fun _ stuck => stuck) ⟨rfl, rfl, rfl, rfl⟩ rfl⟩
    refine ⟨?_, ⟨_, rfl⟩, ⟨_, rfl⟩, List.nodup_nil⟩
    cases items <;> trivial
  | .component name setup view, machine, tidy =>
    ⟨_, _, rfl, (Makes.refl tidy).push ⟨_, rfl⟩ rfl trivial (fun _ stuck => stuck) rfl rfl⟩

theorem makes_optional : (tree : Option (Tree Memory)) → (machine : Stage Memory) → Tidy scene machine →
    ∃ child after, (buildOptional tree).run machine = (.done child, after) ∧ Makes scene machine after child.toList
  | none, machine, tidy => ⟨none, _, rfl, .refl tidy⟩
  | some tree, machine, tidy => by
    obtain ⟨child, after, ran, makes⟩ := makes_tree tree machine tidy
    exact ⟨some child, after, run_bind_of_done ran, makes⟩

theorem makes_all : (trees : List (Tree Memory)) → (machine : Stage Memory) → Tidy scene machine →
    ∃ children after, (buildAll trees).run machine = (.done children, after) ∧ Makes scene machine after children
  | [], machine, tidy => ⟨[], _, rfl, .refl tidy⟩
  | tree :: rest, machine, tidy => by
    obtain ⟨child, between, ran, makes⟩ := makes_tree tree machine tidy
    obtain ⟨children, after, ranLater, makesLater⟩ := makes_all rest between makes.tidy
    exact ⟨child :: children, after, (run_bind_of_done ran).trans (run_bind_of_done ranLater), makes.append makesLater⟩

theorem makes_branches : (trees : List (Query × Option (Tree Memory))) → (machine : Stage Memory) → Tidy scene machine →
    ∃ branches after, (buildBranches trees).run machine = (.done branches, after) ∧ Makes scene machine after (branches.filterMap Prod.snd) ∧
      ∀ branch ∈ branches, ∃ query, branch.1 = .host (.query query)
  | [], machine, tidy => ⟨[], _, rfl, .refl tidy, nofun⟩
  | (test, tree) :: rest, machine, tidy => by
    obtain ⟨child, between, ran, makes⟩ := makes_optional tree machine tidy
    obtain ⟨branches, after, ranLater, makesLater, queries⟩ := makes_branches rest between makes.tidy
    refine ⟨(.host (.query test), child) :: branches, after, (run_bind_of_done ran).trans (run_bind_of_done ranLater), ?_, ?_⟩
    · cases child with
      | none => exact makes.append makesLater
      | some child => exact makes.append makesLater
    · intro branch member
      obtain rfl | member := List.mem_cons.1 member
      · exact ⟨test, rfl⟩
      · exact queries branch member
end

end ReactiveMarkup.Rendering
