import ReactiveMarkup.Loading.Registry
import ReactiveMarkup.Proofs.GeneratedNames

/-! Where paths lead when they are followed from the root: a path that is normalized, or that is
written relative to a directory and resolved there again, leads to the place that it led to. The
main result is that what a generated module imports is looked up under the key under which the
imported module was registered. -/

namespace ReactiveMarkup

namespace Path

/-! Parts between slashes. -/

theorem split_ne_nil (path : List Char) : split path ≠ [] := by
  cases path with
  | nil => exact List.cons_ne_nil _ _
  | cons first rest =>
    rw [split]
    split
    · exact List.cons_ne_nil _ _
    · split <;> exact List.cons_ne_nil _ _

theorem split_append (front back : List Char) : split (front ++ '/' :: back) = split front ++ split back := by
  induction front with
  | nil => rfl
  | cons first rest ih =>
    rw [List.cons_append, split, split, ih]
    split
    · rfl
    · cases parts : split rest with
      | nil => exact absurd parts (split_ne_nil rest)
      | cons => rfl

theorem split_of_notMem {part : List Char} (whole : '/' ∉ part) : split part = [part] := by
  induction part with
  | nil => rfl
  | cons first rest ih =>
    obtain ⟨other, whole⟩ := not_or.1 (fun member => whole (List.mem_cons.2 member))
    rw [split, if_neg (Ne.symm other), ih whole]

theorem notMem_of_mem_split {path part : List Char} (member : part ∈ split path) : '/' ∉ part := by
  induction path generalizing part with
  | nil =>
    rw [split, List.mem_singleton] at member
    exact member ▸ List.not_mem_nil
  | cons first rest ih =>
    rw [split] at member
    split at member
    next => exact (List.mem_cons.1 member).elim (fun same => same ▸ List.not_mem_nil) ih
    next other =>
      cases parts : split rest with
      | nil =>
        rw [parts, List.mem_singleton] at member
        exact member ▸ fun inside => other (List.mem_singleton.1 inside).symm
      | cons second others =>
        rw [parts] at ih member
        obtain rfl | member := List.mem_cons.1 member
        · exact fun inside => (List.mem_cons.1 inside).elim (fun same => other same.symm) (ih (List.mem_cons_self ..))
        · exact ih (List.mem_cons_of_mem _ member)

theorem split_join {parts : List (List Char)} (some : parts ≠ []) (whole : ∀ part ∈ parts, '/' ∉ part) :
    split (join parts) = parts := by
  induction parts with
  | nil => exact absurd rfl some
  | cons first rest ih =>
    obtain ⟨wholeFirst, wholeRest⟩ := List.forall_mem_cons.1 whole
    cases rest with
    | nil => exact split_of_notMem wholeFirst
    | cons second others =>
      rw [join, split_append, split_of_notMem wholeFirst, ih (List.cons_ne_nil _ _) wholeRest]
      · rfl
      · exact fun isLast => nomatch isLast

/-! Following parts from a place below the root. Places have their innermost segment first. -/

abbrev up : List Char := ['.', '.']

/-- A part that leads somewhere. -/
def Leads (part : List Char) : Prop := part ≠ [] ∧ part ≠ ['.']

/-- A segment that is a name and not the way up. -/
def Names (segment : List Char) : Prop := Leads segment ∧ segment ≠ up

/-- Where parts lead from a place below the root. -/
def walk (place parts : List (List Char)) : List (List Char) := parts.foldl (step true) place

theorem walk_append (place front back : List (List Char)) : walk place (front ++ back) = walk (walk place front) back :=
  List.foldl_append

theorem step_of_not_leads {absolute : Bool} {place : List (List Char)} {part : List Char} (idle : ¬ Leads part) :
    step absolute place part = place := by
  unfold step
  rw [if_pos (by simpa [Leads, or_iff_not_imp_left] using idle)]

theorem step_name {absolute : Bool} {place : List (List Char)} {part : List Char} (name : Names part) :
    step absolute place part = part :: place := by
  unfold step
  rw [if_neg (not_or.2 name.1), if_neg name.2]

theorem step_up {place : List (List Char)} (below : ∀ segment ∈ place, Names segment) : step true place up = place.tail := by
  cases place with
  | nil => rfl
  | cons last others => simp [step, up, (below last (List.mem_cons_self ..)).2]

theorem names_step {place : List (List Char)} (below : ∀ segment ∈ place, Names segment) (part : List Char) :
    ∀ segment ∈ step true place part, Names segment := by
  by_cases leads : Leads part
  · by_cases isUp : part = up
    · rw [isUp, step_up below]
      exact fun segment member => below segment (List.mem_of_mem_tail member)
    · rw [step_name ⟨leads, isUp⟩]
      exact List.forall_mem_cons.2 ⟨⟨leads, isUp⟩, below⟩
  · rwa [step_of_not_leads leads]

theorem names_walk {place : List (List Char)} (below : ∀ segment ∈ place, Names segment) (parts : List (List Char)) :
    ∀ segment ∈ walk place parts, Names segment := by
  induction parts generalizing place with
  | nil => exact below
  | cons first rest ih => exact ih (names_step below first)

theorem walk_names {place segments : List (List Char)} (names : ∀ segment ∈ segments, Names segment) :
    walk place segments = segments.reverse ++ place := by
  induction segments generalizing place with
  | nil => rfl
  | cons first rest ih =>
    obtain ⟨isFirst, areRest⟩ := List.forall_mem_cons.1 names
    rw [walk, List.foldl_cons, step_name isFirst, List.reverse_cons, List.append_assoc]
    exact ih areRest

theorem walk_ups {place : List (List Char)} (below : ∀ segment ∈ place, Names segment) (count : Nat) :
    walk place (List.replicate count up) = place.drop count := by
  induction count generalizing place with
  | zero => rfl
  | succ count ih =>
    rw [List.replicate_succ, walk, List.foldl_cons, step_up below, ← List.drop_one, Nat.add_comm, ← List.drop_drop]
    exact ih fun segment member => below segment (List.mem_of_mem_drop member)

theorem length_walk_le {place : List (List Char)} (below : ∀ segment ∈ place, Names segment) (parts : List (List Char)) :
    (walk place parts).length ≤ place.length + parts.length := by
  induction parts generalizing place with
  | nil => exact Nat.le_refl _
  | cons first rest ih =>
    have longer : (step true place first).length ≤ place.length + 1 := by
      by_cases leads : Leads first
      · by_cases isUp : first = up
        · rw [isUp, step_up below, List.length_tail]
          omega
        · rw [step_name ⟨leads, isUp⟩, List.length_cons]
      · rw [step_of_not_leads leads]
        omega
    have := ih (names_step below first)
    rw [walk, List.foldl_cons, List.length_cons]
    rw [walk] at this
    omega

/-! The segments of a path. -/

/-- Segments, innermost first, in their shortest form: all ways up come before all names, and from
the root there is none. -/
structure Shortest (absolute : Bool) (stack : List (List Char)) : Prop where
  leads : ∀ segment ∈ stack, Leads segment
  grouped : stack.Pairwise fun inner outer => inner = up → outer = up
  rooted : absolute = true → up ∉ stack

theorem Shortest.step {absolute : Bool} {stack : List (List Char)} (shortest : Shortest absolute stack) (part : List Char) :
    Shortest absolute (step absolute stack part) := by
  by_cases leads : Leads part
  · by_cases isUp : part = up
    · subst isUp
      cases stack with
      | nil => cases absolute <;> exact ⟨by simp [Path.step, Leads], by simp [Path.step], by simp [Path.step]⟩
      | cons last others =>
        by_cases last_up : last = up
        · -- the ways up so far take one more
          have all : ∀ segment ∈ others, segment = up := fun segment member =>
            (List.pairwise_cons.1 shortest.grouped).1 segment member last_up
          have relative : absolute ≠ true := fun isAbsolute =>
            shortest.rooted isAbsolute (last_up ▸ List.mem_cons_self ..)
          have stays : Path.step absolute (last :: others) up = up :: last :: others := by simp [Path.step, last_up]
          rw [stays]
          refine ⟨List.forall_mem_cons.2 ⟨leads, shortest.leads⟩, List.pairwise_cons.2 ⟨fun outer member _ => ?_, shortest.grouped⟩,
            fun isAbsolute => absurd isAbsolute relative⟩
          exact (List.mem_cons.1 member).elim (fun same => same.trans last_up) (all outer)
        · have back : Path.step absolute (last :: others) up = others := by simp [Path.step, last_up]
          rw [back]
          exact ⟨fun segment member => shortest.leads segment (List.mem_cons_of_mem _ member),
            (List.pairwise_cons.1 shortest.grouped).2,
            fun isAbsolute member => shortest.rooted isAbsolute (List.mem_cons_of_mem _ member)⟩
    · rw [step_name ⟨leads, isUp⟩]
      refine ⟨List.forall_mem_cons.2 ⟨leads, shortest.leads⟩,
        List.pairwise_cons.2 ⟨fun _ _ same => absurd same isUp, shortest.grouped⟩, fun isAbsolute member => ?_⟩
      exact (List.mem_cons.1 member).elim (fun same => isUp same.symm) (shortest.rooted isAbsolute)
  · rwa [step_of_not_leads leads]

theorem shortest_foldl {absolute : Bool} {stack : List (List Char)} (shortest : Shortest absolute stack) (parts : List (List Char)) :
    Shortest absolute (parts.foldl (step absolute) stack) := by
  induction parts generalizing stack with
  | nil => exact shortest
  | cons first rest ih => exact ih (shortest.step first)

theorem shortest_segments (path : List Char) : Shortest (isAbsolute path) (segments path).reverse := by
  rw [segments, List.reverse_reverse]
  exact shortest_foldl ⟨List.forall_mem_nil _, .nil, fun _ => List.not_mem_nil⟩ _

theorem leads_of_mem_segments {path segment : List Char} (member : segment ∈ segments path) : Leads segment :=
  (shortest_segments path).leads segment (List.mem_reverse.2 member)

/-- No part is made up on the way. -/
theorem mem_of_mem_foldl {absolute : Bool} {parts stack : List (List Char)} {segment : List Char}
    (member : segment ∈ parts.foldl (step absolute) stack) : segment ∈ stack ∨ segment ∈ parts := by
  induction parts generalizing stack with
  | nil => exact .inl member
  | cons first rest ih =>
    obtain member | member := ih member
    · have : segment ∈ stack ∨ segment = first := by
        unfold step at member
        split at member
        · exact .inl member
        · split at member
          next isUp =>
            split at member
            · split at member
              · exact (List.mem_cons.1 member).symm
              · exact .inl (List.mem_cons_of_mem _ member)
            · split at member
              · cases member
              · exact .inr (List.mem_singleton.1 member)
          next => exact (List.mem_cons.1 member).symm
      exact this.imp_right fun same => List.mem_cons.2 (.inl same)
    · exact .inr (List.mem_cons_of_mem _ member)

theorem notMem_of_mem_segments {path segment : List Char} (member : segment ∈ segments path) : '/' ∉ segment := by
  rw [segments, List.mem_reverse] at member
  exact notMem_of_mem_split ((mem_of_mem_foldl member).resolve_left List.not_mem_nil)

theorem join_eq_nil {path : List Char} (nowhere : join (segments path) = []) : segments path = [] := by
  have leads : ∀ segment ∈ segments path, Leads segment := fun _ => leads_of_mem_segments
  cases all : segments path with
  | nil => rfl
  | cons first rest =>
    rw [all] at nowhere leads
    have isFirst := (leads first (List.mem_cons_self ..)).1
    cases rest with
    | nil => exact absurd nowhere isFirst
    | cons second others => exact absurd (List.append_eq_nil_iff.1 nowhere).1 isFirst

/-- The parts of a normalized path that lead somewhere. -/
theorem filter_split_normalizeChars (path : List Char) :
    (split (normalizeChars path)).filter (fun part => part != [] && part != ['.']) = segments path := by
  have keeps : (segments path).filter (fun part => part != [] && part != ['.']) = segments path :=
    List.filter_eq_self.2 fun segment member => by simpa [Leads] using leads_of_mem_segments member
  have joined : (split (join (segments path))).filter (fun part => part != [] && part != ['.']) = segments path := by
    by_cases nowhere : segments path = []
    · rw [nowhere]
      rfl
    · rw [split_join nowhere fun _ => notMem_of_mem_segments, keeps]
  rw [normalizeChars]
  split
  · rw [split, if_pos rfl, List.filter_cons_of_neg (by simp), joined]
  · split
    next isEmpty =>
      rw [join_eq_nil (List.isEmpty_iff.1 isEmpty)]
      rfl
    next => exact joined

/-- Parts that lead nowhere can be left out. -/
theorem walk_filter (place parts : List (List Char)) :
    walk place (parts.filter fun part => part != [] && part != ['.']) = walk place parts := by
  induction parts generalizing place with
  | nil => rfl
  | cons first rest ih =>
    by_cases leads : Leads first
    · rw [List.filter_cons_of_pos (by simpa [Leads] using leads)]
      exact ih _
    · rw [List.filter_cons_of_neg (by simpa [Leads] using leads), ih, walk, walk, List.foldl_cons, step_of_not_leads leads]

/-- From below the root, a stack leads where it led with one more part. -/
theorem walk_step {place stack : List (List Char)} (below : ∀ segment ∈ place, Names segment) (shortest : Shortest false stack)
    (part : List Char) : walk place (step false stack part).reverse = step true (walk place stack.reverse) part := by
  by_cases leads : Leads part
  · by_cases isUp : part = up
    · subst isUp
      cases stack with
      | nil => rfl
      | cons last others =>
        by_cases last_up : last = up
        · have stays : step false (last :: others) up = up :: last :: others := by simp [step, last_up]
          rw [stays, List.reverse_cons, walk_append]
          rfl
        · have back : step false (last :: others) up = others := by simp [step, last_up]
          have isName : Names last := ⟨shortest.leads last (List.mem_cons_self ..), last_up⟩
          have goes : walk place (last :: others).reverse = last :: walk place others.reverse := by
            rw [List.reverse_cons, walk_append]
            exact step_name isName
          rw [back, goes, step_up (List.forall_mem_cons.2 ⟨isName, names_walk below _⟩), List.tail_cons]
    · rw [step_name ⟨leads, isUp⟩, step_name ⟨leads, isUp⟩, List.reverse_cons, walk_append]
      exact step_name ⟨leads, isUp⟩
  · rw [step_of_not_leads leads, step_of_not_leads leads]

theorem walk_foldl {place stack : List (List Char)} (below : ∀ segment ∈ place, Names segment) (shortest : Shortest false stack)
    (parts : List (List Char)) :
    walk place (parts.foldl (step false) stack).reverse = walk (walk place stack.reverse) parts := by
  induction parts generalizing stack with
  | nil => rfl
  | cons first rest ih =>
    rw [List.foldl_cons, ih (shortest.step first), walk_step below shortest]
    rfl

/-- The segments of a path lead from the root where its parts lead. -/
theorem walk_segments (path : List Char) : walk [] (segments path) = walk [] (split path) := by
  cases absolute : isAbsolute path with
  | false =>
    rw [segments, absolute]
    exact walk_foldl (List.forall_mem_nil _) ⟨List.forall_mem_nil _, .nil, fun _ => List.not_mem_nil⟩ _
  | true =>
    have shortest := shortest_segments path
    rw [absolute] at shortest
    have names : ∀ segment ∈ segments path, Names segment := fun segment member =>
      ⟨leads_of_mem_segments member, fun isUp => shortest.rooted rfl (isUp ▸ List.mem_reverse.2 member)⟩
    rw [walk_names names, segments, absolute, List.reverse_reverse, List.append_nil]
    rfl

/-- A normalized path leads from the root where the path led. -/
theorem walk_normalizeChars (path : List Char) : walk [] (split (normalizeChars path)) = walk [] (split path) := by
  rw [← walk_filter, filter_split_normalizeChars, walk_segments]

/-! Paths seen from a directory. -/

/-- A path resolved in a directory leads from the root where its parts lead from the directory. -/
theorem walk_resolve (directory : String) {path : String} (relative : isAbsolute path.toList = false) :
    walk [] (split (resolve directory path).toList) = walk (walk [] (split directory.toList)) (split path.toList) := by
  rw [resolve, relative, if_neg Bool.false_ne_true, normalize, String.toList_ofList, walk_normalizeChars, String.toList_append,
    String.toList_append, List.append_assoc]
  exact (congrArg (walk []) (split_append _ _)).trans (walk_append _ _ _)

theorem dropCommon_spec (front back : List (List Char)) :
    ∃ common, front = common ++ (dropCommon front back).1 ∧ back = common ++ (dropCommon front back).2 := by
  fun_induction dropCommon front back with
  | case1 front first back ih =>
    obtain ⟨common, isFront, isBack⟩ := ih
    exact ⟨first :: common, congrArg (first :: ·) isFront, congrArg (first :: ·) isBack⟩
  | case2 => exact ⟨[], rfl, rfl⟩
  | case3 => exact ⟨[], rfl, rfl⟩

/-- As many ways up as there are segments lead back, or to the root. -/
theorem walk_back {absolute : Bool} {common rest : List (List Char)} (shortest : Shortest absolute (common ++ rest).reverse) :
    walk (walk [] (common ++ rest)) (rest.map fun _ => up) = walk [] common := by
  have names : ∀ segment ∈ walk [] (common ++ rest), Names segment := names_walk (List.forall_mem_nil _) _
  have leads : ∀ segment ∈ common ++ rest, Leads segment := fun segment member =>
    shortest.leads segment (List.mem_reverse.2 member)
  rw [List.map_const', walk_ups names]
  by_cases higher : up ∈ rest
  · -- then the common segments are ways up, which stay at the root
    have common_up : ∀ segment ∈ common, segment = up := by
      have grouped := List.pairwise_reverse.1 shortest.grouped
      exact fun segment member => (List.pairwise_append.1 grouped).2.2 segment member up higher rfl
    have root : walk [] common = [] := by
      rw [List.eq_replicate_of_mem common_up, walk_ups (List.forall_mem_nil _), List.drop_nil]
    have short := length_walk_le (List.forall_mem_nil _) rest
    rw [walk_append, root, List.drop_of_length_le (by simpa using short)]
  · have isNames : ∀ segment ∈ rest, Names segment := fun segment member =>
      ⟨leads segment (List.mem_append_right _ member), fun isUp => higher (isUp ▸ member)⟩
    rw [walk_append, walk_names isNames, ← List.length_reverse, List.drop_left]

/-- The parts of a relative path. -/
theorem walk_relative (directory file : String) (place : List (List Char)) :
    walk place (split (relative directory file).toList) =
      walk place ((dropCommon (segments directory.toList) (segments file.toList)).1.map (fun _ => up) ++
        (dropCommon (segments directory.toList) (segments file.toList)).2) := by
  obtain ⟨common, _, isFile⟩ := dropCommon_spec (segments directory.toList) (segments file.toList)
  rw [relative, String.toList_ofList]
  simp only [filter_split_normalizeChars]
  generalize dropCommon (segments directory.toList) (segments file.toList) = rest at isFile ⊢
  have whole : ∀ part ∈ rest.1.map (fun _ => up) ++ rest.2, '/' ∉ part := by
    intro part member
    obtain member | member := List.mem_append.1 member
    · obtain ⟨_, _, rfl⟩ := List.mem_map.1 member
      decide
    · exact notMem_of_mem_segments (isFile ▸ List.mem_append_right _ member)
  have joined : walk place (split (join (rest.1.map (fun _ => up) ++ rest.2))) =
      walk place (rest.1.map (fun _ => up) ++ rest.2) := by
    by_cases nowhere : rest.1.map (fun _ => up) ++ rest.2 = []
    · rw [nowhere]
      rfl
    · rw [split_join nowhere whole]
  split
  · exact joined
  · exact (congrArg (walk place) (split_append ['.'] _)).trans ((walk_append _ _ _).trans joined)

theorem isAbsolute_relative (directory file : String) : isAbsolute (relative directory file).toList = false := by
  rw [relative, String.toList_ofList, isAbsolute]
  dsimp only
  split
  next pointed =>
    rw [pointed]
    rfl
  next => rfl

/-- Resolved in its directory, a relative path leads to the file. -/
theorem walk_resolve_relative (directory file : String) :
    walk [] (split (resolve directory (relative directory file)).toList) = walk [] (split file.toList) := by
  obtain ⟨common, isDirectory, isFile⟩ := dropCommon_spec (segments directory.toList) (segments file.toList)
  have shortest := shortest_segments directory.toList
  rw [walk_resolve directory (isAbsolute_relative directory file), walk_relative, walk_append, ← walk_segments directory.toList,
    ← walk_segments file.toList]
  generalize dropCommon (segments directory.toList) (segments file.toList) = rest at isDirectory isFile ⊢
  rw [isDirectory] at shortest ⊢
  rw [walk_back shortest, ← walk_append, ← isFile]

end Path

namespace Registry

/-- A module is kept under the place to which its path leads from the root. -/
theorem key_eq (path : String) : key path = .ofList ('/' :: Path.join (Path.walk [] (Path.split path.toList)).reverse) := by
  have absolute (rest : List Char) : Path.normalizeChars ('/' :: rest) =
      '/' :: Path.join (Path.walk [] (Path.split ('/' :: rest))).reverse := rfl
  rw [key, Path.resolve]
  split
  next isAbsolute =>
    rw [Path.normalize]
    cases all : path.toList with
    | nil =>
      rw [all] at isAbsolute
      cases isAbsolute
    | cons first rest =>
      rw [all] at isAbsolute
      obtain rfl : first = '/' := by simpa [Path.isAbsolute] using isAbsolute
      rw [absolute]
  next =>
    rw [Path.normalize, String.toList_append, String.toList_append]
    exact congrArg String.ofList (absolute _)

end Registry

namespace Lowering

/-- What a generated module imports beside the constructors. -/
theorem mem_imports_assemble {setting : Setting} {files : ComponentFiles} {resolver : ComponentFiles → String} {root : Option Code}
    {used : Used} {entry : List Specifier × String}
    (member : entry ∈ (assemble setting files resolver root used).imports.tail) :
    (∃ path ∈ files.styles, entry = ([], Path.relative files.directory path)) ∨
      entry = ([.default controllerName], Path.relative files.directory files.controller) ∨
      ∃ tag name child, Entries.get? setting.siblings tag = some child ∧
        entry = ([.default name], Path.relative files.directory (resolver child)) := by
  simp only [assemble, Program.imports, List.cons_append, List.nil_append, List.filterMap_cons, List.filterMap_nil, List.tail_cons,
    List.filterMap_append, List.mem_append, List.mem_filterMap, List.mem_singleton, Option.mem_toList, Option.map_eq_some_iff] at member
  obtain (((⟨statement, ⟨path, isStyle, rfl⟩, same⟩ | rfl) | ⟨statement, ⟨⟨tag, name⟩, _, child, isChild, rfl⟩, same⟩) |
    ⟨statement, constants, same⟩) | none := member
  · exact .inl ⟨path, isStyle, (Option.some.inj same).symm⟩
  · exact .inr (.inl rfl)
  · exact .inr (.inr ⟨tag, name, child, isChild, (Option.some.inj same).symm⟩)
  · split at constants
    · rw [List.mem_singleton.1 constants] at same
      cases same
    · cases constants
  · cases none

end Lowering

/-- A path that leads from a directory to a module is resolved there to the key of the module,
wherever the two stand; and so is all that a generated module imports from its own directory. -/
theorem Registry.key_resolve_relative :
    (∀ directory path : String, Registry.key (Path.resolve directory (Path.relative directory path)) = Registry.key path) ∧
    ∀ (markup : List Markup) (files : ComponentFiles) (siblings : Entries ComponentFiles) (resolver : ComponentFiles → String)
      (config : Config) (program : Program), Program.ofMarkup markup files siblings resolver config = .ok program →
      ∀ entry ∈ program.imports.tail,
        (∃ path ∈ files.styles, entry.1 = [] ∧ Registry.key (Path.resolve files.directory entry.2) = Registry.key path) ∨
        entry.1 = [.default Lowering.controllerName] ∧
          Registry.key (Path.resolve files.directory entry.2) = Registry.key files.controller ∨
        ∃ tag name child, Entries.get? siblings tag = some child ∧ entry.1 = [.default name] ∧
          Registry.key (Path.resolve files.directory entry.2) = Registry.key (resolver child) := by
  have law (directory path : String) : key (Path.resolve directory (Path.relative directory path)) = key path := by
    rw [key_eq, key_eq path, Path.walk_resolve_relative]
  refine ⟨law, fun markup files siblings resolver config program lowered entry member => ?_⟩
  obtain ⟨root, used, _, rfl⟩ := Program.exists_of_lowered lowered
  obtain ⟨path, isStyle, rfl⟩ | rfl | ⟨tag, name, child, isChild, rfl⟩ := Lowering.mem_imports_assemble member
  · exact .inl ⟨path, isStyle, rfl, law _ _⟩
  · exact .inr (.inl ⟨rfl, law _ _⟩)
  · exact .inr (.inr ⟨tag, name, child, isChild, rfl, law _ _⟩)

/-- A component from outside the directories of its page, written as seen from another place. -/
def strangerSiblings : Entries ComponentFiles := [("x-y", .standard "x-y" "../shared")]

def strangerProgram : Program :=
  match Program.ofMarkup [.element "x-y" [] []] (.standard "page" "/app/pages") strangerSiblings ComponentFiles.path {} with
  | .ok program => program
  | .error _ => []

theorem Registry.key_resolve_relative_stranger :
    Program.ofMarkup [.element "x-y" [] []] (.standard "page" "/app/pages") strangerSiblings ComponentFiles.path {} =
      .ok strangerProgram ∧
    ([.default "XY"], "../../../shared/x-y.component.js") ∈ strangerProgram.imports.tail ∧
    Registry.key (Path.resolve "/app/pages" "../../../shared/x-y.component.js") = Registry.key "../shared/x-y.component.js" := by
  have lowered : Program.ofMarkup [.element "x-y" [] []] (.standard "page" "/app/pages") strangerSiblings ComponentFiles.path {} =
    .ok strangerProgram := rfl
  have imported : ([.default "XY"], "../../../shared/x-y.component.js") ∈ strangerProgram.imports.tail := by decide +kernel
  refine ⟨lowered, imported, ?_⟩
  obtain ⟨_, _, isStyle, _⟩ | ⟨isController, _⟩ | ⟨tag, name, child, isChild, _, same⟩ :=
    Registry.key_resolve_relative.2 _ _ _ _ _ _ lowered _ imported
  · cases isStyle
  · simp [Lowering.controllerName] at isController
  · have found : child = .standard "x-y" "../shared" := by
      rw [strangerSiblings, Entries.get?_cons] at isChild
      split at isChild
      · exact (Option.some.inj isChild).symm
      · cases isChild
    rw [found] at same
    exact same

end ReactiveMarkup
