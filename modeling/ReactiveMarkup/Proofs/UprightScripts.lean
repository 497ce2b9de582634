import ReactiveMarkup.Proofs.UprightRuns

/-! Scripts leave trees alone but for the effects that they set off, and a tree is made of new nodes. -/

namespace ReactiveMarkup.Rendering

open ReactiveMarkup.Step ReactiveMarkup.Graph ReactiveMarkup.Machine

variable {Memory : Type} {α β : Type} {start machine before middle after : Stage Memory} {roots : NodeId → Prop} {whole : Prop}
  {calls : Calls (Host.rendering Memory)}

/-- The world is no matter for trees. -/
theorem Tends.modifyWorld {f : World Memory → World Memory} {next : Unit → Act Memory β} (alters : Alters roots True start machine)
    (rest : Alters roots True start { machine with world := f machine.world } → Tends roots start (next ()) { machine with world := f machine.world }) :
    Tends roots start (Rendering.modifyWorld f >>= next) machine := rest (alters.carry rfl rfl)

section

variable (keeps : KeepsTrees calls) (upright : Upright machine)

include keeps upright

omit keeps in
theorem off_onSignal {cell : Nat} {act : Act Memory Unit}
    (acting : ∀ held, machine.graph.content? cell = some (.signal held) → Tends.off act machine) : Tends.off (onSignal cell act) machine := by
  refine tends_graph?.2 ?_
  split
  next held signal => exact acting held signal
  next => exact .panic (.refl upright) _

theorem off_run (script : Script Memory) : Tends.off (run calls script) machine := by
  induction script generalizing machine with
  | finish | leave => exact .pure (.refl upright) _
  | newSignal value next ih =>
    exact .bind (off_addToGraph upright nofun nofun) fun id _ _ alters => .idle alters (ih id alters.upright)
  | newComputed query next ih =>
    refine .bind (off_addToGraph upright ?_ nofun) fun id _ _ alters => .idle alters (ih id alters.upright)
    rintro _ ⟨⟩
    exact ⟨rfl, query, rfl⟩
  | newEffect body next _ ih =>
    have formed : (Task.host (.script fun _ => body) : Task (Code Memory)).Formed := trivial
    have made := tends_newEffect keeps upright formed
    refine .bind (.call (.refl upright) made nofun) fun id _ _ alters => .modifyWorld alters fun alters => ?_
    exact .idle alters (ih id alters.upright)
  | get cell next ih => exact .bind (off_readCell keeps upright cell) fun value _ _ alters => .idle alters (ih value alters.upright)
  | peek cell next ih => exact ih _ upright
  | set cell value next ih =>
    refine .bind (off_onSignal upright fun held signal => ?_) fun _ _ _ alters => .idle alters (ih alters.upright)
    exact off_writeSignal keeps upright signal value
  | update cell value next ih =>
    refine .bind (off_onSignal upright fun held signal => ?_) fun _ _ _ alters => .idle alters (ih alters.upright)
    exact off_updateSignal keeps upright signal value
  | batch body next ihBody ih =>
    refine .bind (tends_batch keeps upright (ihBody upright.enterBatch)) fun result _ _ alters => ?_
    exact .idle alters (ih result.1 alters.upright)
  | untrack body next ihBody ih =>
    refine .bind (.observed upright (ihBody upright.unobserved)) fun result _ _ alters => ?_
    exact .idle alters (ih result.1 alters.upright)
  | dispose effect next ih =>
    refine .seen_bind (.refl upright) rfl fun found _ => ?_
    split
    next => exact .bind (off_dispose keeps upright effect) fun _ _ _ alters => .idle alters (ih alters.upright)
    next => exact .bind (.panic (.refl upright) _) fun _ _ _ alters => .idle alters (ih alters.upright)
  | remember access next ih =>
    have alters : Alters (fun _ => False) True machine { machine with world := { machine.world with memory := (access machine.world.memory).2 } } :=
      (Alters.refl upright).carry rfl rfl
    have rest : Tends (fun _ => False) machine (run calls (next (access machine.world.memory).1))
        { machine with world := { machine.world with memory := (access machine.world.memory).2 } } := .idle alters (ih _ alters.upright)
    exact rest

end

/-- What making nodes leaves behind. -/
structure Built (before after : Stage Memory) (made : List NodeId) : Prop where
  alters : Alters (fun _ => False) True before after
  fresh : ∀ id ∈ made, Fresh before after id

namespace Built

variable {made more : List NodeId}

theorem append (first : Built before middle made) (second : Built middle after more) : Built before after (made ++ more) := by
  refine ⟨first.alters.trans second.alters nofun, fun id member => ?_⟩
  obtain member | member := List.mem_append.1 member
  · obtain ⟨new, inside⟩ := first.fresh id member
    exact ⟨new, Nat.lt_of_lt_of_le inside second.alters.grows.size⟩
  · obtain ⟨new, inside⟩ := second.fresh id member
    exact ⟨Nat.le_trans first.alters.grows.size new, inside⟩

/-- A node is made of those made before. -/
theorem push (built : Built before machine made) {node : Node (Code Memory)} (formed : Formed node) (kids : ∀ kid ∈ node.kids, kid ∈ made)
    (fair : Fair machine.graph node) (moving : ∀ selection, ¬ Stuck selection node) :
    Built before { machine with nodes := machine.nodes.push node } [machine.nodes.size] := by
  refine ⟨built.alters.push formed (fun kid member => (built.fresh kid (kids kid member)).2) (fun kid member => (built.fresh kid (kids kid member)).1) fair moving, ?_⟩
  intro id member
  cases List.mem_singleton.1 member
  exact ⟨built.alters.grows.size, by simp⟩

theorem refl (upright : Upright machine) : Built machine machine [] := ⟨.refl upright, nofun⟩

end Built

mutual
theorem built_tree : (tree : Tree Memory) → (machine : Stage Memory) → Upright machine →
    ∃ child after, tree.build.run machine = (.done child, after) ∧ Built machine after [child]
  | .element tag attributes properties events child, machine, upright => by
    obtain ⟨child, between, ran, built⟩ := built_optional child machine upright
    refine ⟨_, _, run_bind_of_done ran, built.push ?_ (fun _ member => member) trivial fun _ stuck => stuck⟩
    intro property member
    obtain ⟨⟨name, source⟩, _, rfl⟩ := List.mem_map.1 member
    cases source <;> trivial
  | .text content, machine, upright => by
    refine ⟨_, _, rfl, (Built.refl upright).push ?_ nofun trivial fun _ stuck => stuck⟩
    cases content <;> trivial
  | .fragment children, machine, upright => by
    obtain ⟨children, between, ran, built⟩ := built_all children machine upright
    exact ⟨_, _, run_bind_of_done ran, built.push trivial (fun _ member => member) trivial fun _ stuck => stuck⟩
  | .conditional branches otherwise, machine, upright => by
    obtain ⟨branches, between, ran, built, queries⟩ := built_branches branches machine upright
    obtain ⟨otherwise, later, ranLater, builtLater⟩ := built_optional otherwise between built.alters.upright
    refine ⟨_, _, (run_bind_of_done ran).trans (run_bind_of_done ranLater), (built.append builtLater).push queries (fun _ member => member) ⟨.otherwise, .inl rfl, .inl rfl⟩ ?_⟩
    rintro _ ⟨never, _⟩
    cases never
  | .list items strict track each empty, machine, upright => by
    obtain ⟨empty, between, ran, built⟩ := built_optional empty machine upright
    refine ⟨_, _, run_bind_of_done ran, built.push ?_ (fun _ member => member) nofun fun _ stuck => stuck⟩
    refine ⟨?_, ⟨_, rfl⟩, ⟨_, rfl⟩, List.nodup_nil⟩
    cases items <;> trivial
  | .component name setup view, machine, upright =>
    ⟨_, _, rfl, (Built.refl upright).push ⟨_, rfl⟩ nofun trivial fun _ stuck => stuck⟩

theorem built_optional : (tree : Option (Tree Memory)) → (machine : Stage Memory) → Upright machine →
    ∃ child after, (buildOptional tree).run machine = (.done child, after) ∧ Built machine after child.toList
  | none, machine, upright => ⟨none, _, rfl, .refl upright⟩
  | some tree, machine, upright => by
    obtain ⟨child, after, ran, built⟩ := built_tree tree machine upright
    exact ⟨some child, after, run_bind_of_done ran, built⟩

theorem built_all : (trees : List (Tree Memory)) → (machine : Stage Memory) → Upright machine →
    ∃ children after, (buildAll trees).run machine = (.done children, after) ∧ Built machine after children
  | [], machine, upright => ⟨[], _, rfl, .refl upright⟩
  | tree :: rest, machine, upright => by
    obtain ⟨child, between, ran, built⟩ := built_tree tree machine upright
    obtain ⟨children, after, ranLater, builtLater⟩ := built_all rest between built.alters.upright
    exact ⟨child :: children, after, (run_bind_of_done ran).trans (run_bind_of_done ranLater), built.append builtLater⟩

theorem built_branches : (trees : List (Query × Option (Tree Memory))) → (machine : Stage Memory) → Upright machine →
    ∃ branches after, (buildBranches trees).run machine = (.done branches, after) ∧ Built machine after (branches.filterMap Prod.snd) ∧
      ∀ branch ∈ branches, ∃ query, branch.1 = .host (.query query)
  | [], machine, upright => ⟨[], _, rfl, .refl upright, nofun⟩
  | (test, tree) :: rest, machine, upright => by
    obtain ⟨child, between, ran, built⟩ := built_optional tree machine upright
    obtain ⟨branches, after, ranLater, builtLater, queries⟩ := built_branches rest between built.alters.upright
    refine ⟨(.host (.query test), child) :: branches, after, (run_bind_of_done ran).trans (run_bind_of_done ranLater), ?_, ?_⟩
    · cases child with
      | none => exact built.append builtLater
      | some child => exact built.append builtLater
    · intro branch member
      obtain rfl | member := List.mem_cons.1 member
      · exact ⟨test, rfl⟩
      · exact queries branch member
end

/-- Making the node of an item, from what a list hands over. -/
theorem off_buildItem (upright : Upright machine) (each : Nat → Value → Tree Memory) (arguments : List Value) :
    Tends.off (buildItem each arguments) machine ∧
      ∀ child after, (buildItem each arguments).run machine = (.done child, after) → Fresh machine after child := by
  have broken (cause : Panic) : Tends.off (Step.panic cause : Act Memory NodeId) machine ∧
      ∀ child after, (Step.panic cause : Act Memory NodeId).run machine = (.done child, after) → Fresh machine after child :=
    ⟨.panic (.refl upright) cause, fun child after ran => by cases ran⟩
  unfold buildItem
  split
  next id item rest =>
    have isRun (step : Machine (Host.rendering Memory) → Act Memory NodeId) : (get >>= step).run machine = (step machine).run machine := rfl
    unfold Tends.off Tends
    rw [isRun]
    dsimp only
    split
    next cell _ =>
      obtain ⟨child, after, ran, built⟩ := built_tree (each cell item) machine upright
      refine ⟨?_, fun other later again => ?_⟩
      · rw [ran]
        exact { built.alters with spared := fun _ => built.alters.spared trivial }
      · cases ran.symm.trans again
        exact built.fresh child (List.mem_singleton_self child)
    next => exact broken _
  next => exact broken _

end ReactiveMarkup.Rendering
