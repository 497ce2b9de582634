import Mathlib.Data.Set.Function
import ReactiveMarkup.Proofs.EntryLaws
import ReactiveMarkup.Proofs.VariableNames

/-! The variables of elements are injective and stable. Each tag keeps the variable that it was given
first, and a new one is found by renaming until it is free, which comes to an end. -/

namespace ReactiveMarkup.Lowering

/-- Renaming, from a name and the number to try next: as long as the name is taken, the next number is
tried. Where it ends the name is free. -/
inductive Renames (taken : List String) (base : String) : String → Nat → String → Nat → Prop
  | free {name : String} {number : Nat} (free : name ∉ taken) : Renames taken base name number name number
  | next {name found : String} {number last : Nat} (member : name ∈ taken)
    (more : Renames taken base (base ++ "_" ++ toString number) (number + 1) found last) : Renames taken base name number found last

variable {taken : List String} {base name : String}

/-- Renaming depends on which names are taken, not on their order. -/
theorem Renames.congr {others : List String} {found : String} {number last : Nat} (same : ∀ name, name ∈ taken ↔ name ∈ others)
    (renames : Renames taken base name number found last) : Renames others base name number found last := by
  induction renames with
  | free free => exact .free fun member => free ((same _).2 member)
  | next member _ ih => exact .next ((same _).1 member) ih

/-- Renaming goes through candidates one after the other. -/
theorem renames_of_find? {found : String} {number count : Nat}
    (isFound : (name :: (List.range' number count).map fun n => base ++ "_" ++ toString n).find? (fun name => !taken.contains name) =
      some found) : ∃ last ≤ number + count, Renames taken base name number found last := by
  induction count generalizing name number with
  | zero =>
    obtain rfl := List.mem_singleton.1 (List.mem_of_find?_eq_some isFound)
    exact ⟨number, Nat.le_refl _, .free (by simpa using List.find?_some isFound)⟩
  | succ count ih =>
    by_cases member : name ∈ taken
    · rw [List.find?_cons_of_neg (by simpa using member), List.range'_succ, List.map_cons] at isFound
      obtain ⟨last, few, renames⟩ := ih isFound
      exact ⟨last, by omega, .next member renames⟩
    · rw [List.find?_cons_of_pos (by simpa using member)] at isFound
      cases isFound
      exact ⟨number, Nat.le_add_right .., .free member⟩

/-- Renaming comes to an end, with no more numbers than there are taken names. -/
theorem renames_freshVariable (taken : List String) (base : String) :
    ∃ last ≤ taken.length + 2, Renames taken base base 2 (freshVariable taken base) last := by
  have numbers : (List.range taken.length).map (fun n => base ++ "_" ++ toString (n + 2)) =
      (List.range' 2 taken.length).map fun n => base ++ "_" ++ toString n := by
    rw [List.range'_eq_map_range, List.map_map]
    exact List.map_congr_left fun n _ => by rw [Function.comp_apply, Nat.add_comm]
  have found := find?_candidates taken base
  rw [numbers] at found
  rw [Nat.add_comm]
  exact renames_of_find? found

/-! One tag. -/

/-- The table of variables once a tag has been asked for. -/
def hoist (table : Entries String) (tag : String) : Entries String :=
  match Entries.get? table tag with
  | some _ => table
  | none => Entries.put table tag (freshVariable (table.map (·.2)) (Name.ofElement tag))

/-- The variable of a tag in a table that has one. -/
def variableIn (table : Entries String) (tag : String) : String := (Entries.get? table tag).getD ""

/-- Tags stand once each in the table, under variables of their own. -/
structure Hoisted (table : Entries String) : Prop where
  tags : (Entries.names table).Nodup
  apart : (table.map (·.2)).Nodup
  named : ∀ entry ∈ table, ∃ behind, entry.2 = Name.ofElement entry.1 ++ behind

variable {table : Entries String} {tag : String}

theorem hoisted_nil : Hoisted [] := ⟨List.nodup_nil, List.nodup_nil, List.forall_mem_nil _⟩

theorem hoist_of_known {kept : String} (known : Entries.get? table tag = some kept) : hoist table tag = table := by
  rw [hoist, known]

theorem hoist_of_fresh (fresh : Entries.get? table tag = none) :
    hoist table tag = table ++ [(tag, freshVariable (table.map (·.2)) (Name.ofElement tag))] := by
  rw [hoist, fresh]
  exact Entries.put_of_fresh fresh _

theorem get?_hoist_of_known {other kept : String} (known : Entries.get? table other = some kept) :
    Entries.get? (hoist table tag) other = some kept := by
  cases found : Entries.get? table tag with
  | some _ => rwa [hoist_of_known found]
  | none =>
    rw [hoist, found]
    exact Entries.get?_put_of_fresh found known

theorem get?_hoist_self (table : Entries String) (tag : String) : ∃ kept, Entries.get? (hoist table tag) tag = some kept := by
  cases found : Entries.get? table tag with
  | some kept => exact ⟨kept, get?_hoist_of_known found⟩
  | none =>
    rw [hoist, found]
    exact ⟨_, by rw [Entries.get?_put, if_pos rfl]⟩

theorem mem_names_hoist {other : String} : other ∈ Entries.names (hoist table tag) ↔ other = tag ∨ other ∈ Entries.names table := by
  cases found : Entries.get? table tag with
  | some kept =>
    rw [hoist_of_known found]
    refine (or_iff_right_of_imp ?_).symm
    rintro rfl
    exact Entries.isSome_get?_iff.1 (by rw [found]; rfl)
  | none =>
    rw [hoist_of_fresh found]
    simp [Entries.names, or_comm]

theorem hoisted_hoist (hoisted : Hoisted table) (tag : String) : Hoisted (hoist table tag) := by
  cases found : Entries.get? table tag with
  | some kept => rwa [hoist_of_known found]
  | none =>
    have tags : (Entries.names (hoist table tag)).Nodup := by
      rw [hoist, found]
      exact Entries.nodup_put hoisted.tags ..
    refine ⟨tags, ?_, ?_⟩ <;> rw [hoist_of_fresh found]
    · rw [List.map_append, List.map_singleton, List.nodup_append_comm]
      exact List.nodup_cons.2 ⟨freshVariable_notMem _ _, hoisted.apart⟩
    · obtain ⟨behind, front, _⟩ := freshVariable_front (table.map (·.2)) (Name.ofElement tag)
      exact List.forall_mem_append.2 ⟨hoisted.named, List.forall_mem_singleton.2 ⟨behind, front⟩⟩

/-- Asking for a tag gives its variable in the table as it is then. -/
theorem run_elementVariable_eq (used : Used) (tag : String) :
    (elementVariable tag).run used =
      .ok (variableIn (hoist used.elements tag) tag, { used with elements := hoist used.elements tag }) := by
  cases found : Entries.get? used.elements tag with
  | some kept =>
    rw [variableIn, get?_hoist_of_known found, hoist_of_known found, elementVariable]
    simp only [StateT.run_bind, StateT.run_get, pure_bind, found]
    rfl
  | none =>
    rw [variableIn, hoist, found, Entries.get?_put, if_pos rfl, elementVariable]
    simp only [StateT.run_bind, StateT.run_get, pure_bind, found]
    rfl

/-! Sequences of tags. -/

theorem get?_foldl_hoist {other kept : String} (known : Entries.get? table other = some kept) (tags : List String) :
    Entries.get? (tags.foldl hoist table) other = some kept := by
  induction tags generalizing table with
  | nil => exact known
  | cons tag rest ih => exact ih (get?_hoist_of_known known)

theorem mem_names_foldl_hoist {tags : List String} {other : String} :
    other ∈ Entries.names (tags.foldl hoist table) ↔ other ∈ tags ∨ other ∈ Entries.names table := by
  induction tags generalizing table with
  | nil => simp
  | cons tag rest ih => rw [List.foldl_cons, ih, mem_names_hoist, List.mem_cons, or_assoc, or_left_comm]

theorem hoisted_foldl_hoist (hoisted : Hoisted table) (tags : List String) : Hoisted (tags.foldl hoist table) := by
  induction tags generalizing table with
  | nil => exact hoisted
  | cons tag rest ih => exact ih (hoisted_hoist hoisted tag)

/-- Later tags change no variable, so all of them can be looked up at the end. -/
theorem run_elementVariables (tags : List String) (used : Used) :
    (tags.mapM elementVariable).run used =
      .ok (tags.map (variableIn (tags.foldl hoist used.elements)), { used with elements := tags.foldl hoist used.elements }) := by
  induction tags generalizing used with
  | nil => rfl
  | cons tag rest ih =>
    obtain ⟨kept, known⟩ := get?_hoist_self used.elements tag
    have stays : variableIn (rest.foldl hoist (hoist used.elements tag)) tag = variableIn (hoist used.elements tag) tag := by
      rw [variableIn, variableIn, known, get?_foldl_hoist known]
    rw [List.mapM_cons, StateT.run_bind, run_elementVariable_eq]
    show (rest.mapM elementVariable >>= fun names => pure (variableIn (hoist used.elements tag) tag :: names)).run
      { used with elements := hoist used.elements tag } = _
    rw [StateT.run_bind, ih, List.foldl_cons, List.map_cons, stays]
    rfl

/-! Variables at the end. -/

theorem variableIn_mem {tag : String} (member : tag ∈ Entries.names table) : (tag, variableIn table tag) ∈ table := by
  obtain ⟨kept, found⟩ := Option.isSome_iff_exists.1 (Entries.isSome_get?_iff.2 member)
  rw [variableIn, found]
  exact Entries.mem_of_get? found

/-- Tags with one variable are one tag. -/
theorem Hoisted.injOn (hoisted : Hoisted table) : Set.InjOn (variableIn table) {tag | tag ∈ Entries.names table} := by
  intro tag member other memberOther same
  have entry := variableIn_mem member
  rw [same] at entry
  exact congrArg Prod.fst (List.inj_on_of_nodup_map hoisted.apart entry (variableIn_mem memberOther) rfl)

/-- What is taken after some tags are their variables. -/
theorem mem_taken_iff {tags : List String} (later : List String) {name : String} :
    name ∈ (tags.foldl hoist []).map (·.2) ↔ name ∈ tags.map (variableIn ((tags ++ later).foldl hoist [])) := by
  have hoisted : Hoisted (tags.foldl hoist []) := hoisted_foldl_hoist hoisted_nil tags
  have kept {tag value : String} (member : (tag, value) ∈ tags.foldl hoist []) :
      variableIn ((tags ++ later).foldl hoist []) tag = value := by
    rw [variableIn, List.foldl_append, get?_foldl_hoist (Entries.get?_of_mem hoisted.tags member)]
    rfl
  rw [List.mem_map, List.mem_map]
  constructor
  · rintro ⟨⟨tag, value⟩, member, rfl⟩
    refine ⟨tag, ?_, kept member⟩
    exact (mem_names_foldl_hoist.1 (List.mem_map_of_mem member)).resolve_right nofun
  · rintro ⟨tag, member, rfl⟩
    have known : tag ∈ Entries.names (tags.foldl hoist []) := mem_names_foldl_hoist.2 (.inl member)
    have entry := variableIn_mem known
    exact ⟨_, entry, (kept entry).symm⟩

/-- A tag that is new gets what renaming comes to with the variables of the tags before it. -/
theorem renames_variableIn {before : List String} {tag : String} (behind : List String) (fresh : tag ∉ before) :
    ∃ last ≤ before.length + 2, Renames (before.map (variableIn ((before ++ tag :: behind).foldl hoist []))) (Name.ofElement tag)
      (Name.ofElement tag) 2 (variableIn ((before ++ tag :: behind).foldl hoist []) tag) last := by
  have absent : Entries.get? (before.foldl hoist []) tag = none := by
    refine Entries.get?_eq_none fun member => fresh ?_
    exact (mem_names_foldl_hoist.1 member).resolve_right nofun
  have found : Entries.get? (hoist (before.foldl hoist []) tag) tag =
      some (freshVariable ((before.foldl hoist []).map (·.2)) (Name.ofElement tag)) := by
    rw [hoist, absent, Entries.get?_put, if_pos rfl]
  have isVariable : variableIn ((before ++ tag :: behind).foldl hoist []) tag =
      freshVariable ((before.foldl hoist []).map (·.2)) (Name.ofElement tag) := by
    rw [variableIn, List.foldl_append, List.foldl_cons, get?_foldl_hoist found]
    rfl
  have few : ((before.foldl hoist []).map (·.2)).length ≤ before.length := by
    have hoisted : Hoisted (before.foldl hoist []) := hoisted_foldl_hoist hoisted_nil before
    have inside : Entries.names (before.foldl hoist []) ⊆ before := fun _ member => (mem_names_foldl_hoist.1 member).resolve_right nofun
    simpa [Entries.names] using (List.subperm_of_subset hoisted.tags inside).length_le
  obtain ⟨last, least, renames⟩ := renames_freshVariable ((before.foldl hoist []).map (·.2)) (Name.ofElement tag)
  rw [isVariable]
  exact ⟨last, by omega, renames.congr fun name => mem_taken_iff (tag :: behind)⟩

/-- Variables of elements are injective and stable. For any sequence of tags each is given one variable
for good, no two are given the same, and all variables are marked. The variable of a new tag is found by
renaming what is made of the tag until no variable before has its name, within one round for each of these. -/
theorem elementVariables_injective (tags : List String) :
    ∃ (nameOf : String → String) (after : Used), (tags.mapM elementVariable).run {} = .ok (tags.map nameOf, after) ∧
      Set.InjOn nameOf {tag | tag ∈ tags} ∧ (∀ tag ∈ tags, "$e_".toList <+: (nameOf tag).toList) ∧
      ∀ before tag behind, tags = before ++ tag :: behind → tag ∉ before →
        ∃ last ≤ before.length + 2, Renames (before.map nameOf) (Name.ofElement tag) (Name.ofElement tag) 2 (nameOf tag) last := by
  have hoisted : Hoisted (tags.foldl hoist []) := hoisted_foldl_hoist hoisted_nil tags
  have known {tag : String} (member : tag ∈ tags) : tag ∈ Entries.names (tags.foldl hoist []) := mem_names_foldl_hoist.2 (.inl member)
  refine ⟨_, _, run_elementVariables tags {}, fun tag member other memberOther => hoisted.injOn (known member) (known memberOther), ?_, ?_⟩
  · intro tag member
    obtain ⟨behind, named⟩ := hoisted.named _ (variableIn_mem (known member))
    refine ⟨(Text.sanitize tag ++ behind).toList, ?_⟩
    dsimp only at named
    rw [named, Name.ofElement, String.append_assoc]
    exact (String.toList_append ..).symm
  · rintro before tag behind rfl fresh
    exact renames_variableIn behind fresh

/-- Tags that are spelled alike, one of them like a numbered variable. -/
example : ((["my-el", "my_el", "my_el_2", "my-el"].mapM elementVariable).run {}).map (·.1) =
    .ok ["$e_my_el", "$e_my_el_2", "$e_my_el_2_2", "$e_my_el"] := by
  cbv

end ReactiveMarkup.Lowering
