import Mathlib.Data.List.Induction
import Mathlib.Data.List.Nodup
import ReactiveMarkup.Entries

/-! Entries with names of their own. -/

namespace ReactiveMarkup.Entries

variable {α : Type}

theorem put_of_fresh {entries : Entries α} {name : String} (fresh : get? entries name = none) (value : α) :
    put entries name value = entries ++ [(name, value)] := by
  induction entries with
  | nil => rfl
  | cons entry rest ih =>
    obtain ⟨head, old⟩ := entry
    rw [get?_cons] at fresh
    split at fresh
    · cases fresh
    next apart => rw [put, if_neg (Ne.symm apart), ih fresh, List.cons_append]

theorem get?_put_of_fresh {entries : Entries α} {name other : String} {value old : α} (fresh : get? entries name = none)
    (found : get? entries other = some old) : get? (put entries name value) other = some old := by
  have apart : other ≠ name := by
    rintro rfl
    rw [fresh] at found
    cases found
  rw [get?_put, if_neg apart, found]

theorem get?_eq_none {entries : Entries α} {name : String} (absent : name ∉ names entries) : get? entries name = none := by
  cases found : get? entries name with
  | none => rfl
  | some value => exact absurd (List.mem_map.2 ⟨_, mem_of_get? found, rfl⟩) absent

/-- Entries with names of their own are put one behind another. -/
theorem foldl_put_of_nodup {base entries : Entries α} (apart : (names (base ++ entries)).Nodup) :
    entries.foldl (fun entries entry => put entries entry.1 entry.2) base = base ++ entries := by
  induction entries generalizing base with
  | nil => exact (List.append_nil base).symm
  | cons entry rest ih =>
    obtain ⟨name, value⟩ := entry
    have fresh : get? base name = none := by
      refine get?_eq_none fun member => ?_
      rw [names, List.map_append, List.nodup_append] at apart
      exact apart.2.2 name member name (List.mem_cons_self ..) rfl
    rw [List.foldl_cons, put_of_fresh fresh, ih (by simpa using apart), List.append_assoc]
    rfl

theorem get?_of_mem {entries : Entries α} (apart : (names entries).Nodup) {name : String} {value : α} (member : (name, value) ∈ entries) :
    get? entries name = some value := by
  induction entries with
  | nil => cases member
  | cons entry rest ih =>
    obtain ⟨head, old⟩ := entry
    rw [names, List.map_cons, List.nodup_cons] at apart
    rw [get?_cons]
    obtain same | member := List.mem_cons.1 member
    · cases same
      exact if_pos rfl
    · rw [if_neg (fun same => apart.1 (List.mem_map.2 ⟨_, member, same⟩)), ih apart.2 member]

theorem eq_or_mem_of_mem_put {entries : Entries α} {name : String} {value : α} {entry : String × α} (member : entry ∈ put entries name value) :
    entry = (name, value) ∨ entry ∈ entries := by
  induction entries with
  | nil => exact .inl (List.mem_singleton.1 member)
  | cons other rest ih =>
    obtain ⟨head, old⟩ := other
    rw [put] at member
    split at member
    · exact (List.mem_cons.1 member).imp_right (List.mem_cons_of_mem _)
    · obtain rfl | member := List.mem_cons.1 member
      · exact .inr (List.mem_cons_self ..)
      · exact (ih member).imp_right (List.mem_cons_of_mem _)

theorem names_put (entries : Entries α) (name : String) (value : α) :
    names (put entries name value) = if (get? entries name).isSome then names entries else names entries ++ [name] := by
  induction entries with
  | nil => rfl
  | cons entry rest ih =>
    obtain ⟨head, old⟩ := entry
    rw [put, get?_cons]
    by_cases same : head = name
    · subst same
      rw [if_pos rfl, if_pos rfl]
      rfl
    · rw [if_neg same, if_neg (Ne.symm same)]
      show head :: names (put rest name value) = _
      rw [ih]
      split <;> rfl

theorem nodup_put {entries : Entries α} (apart : (names entries).Nodup) (name : String) (value : α) :
    (names (put entries name value)).Nodup := by
  rw [names_put]
  split
  · exact apart
  next fresh =>
    refine List.nodup_append_comm.1 (List.nodup_cons.2 ⟨fun member => fresh ?_, apart⟩)
    obtain ⟨⟨_, old⟩, inside, rfl⟩ := List.mem_map.1 member
    rw [get?_of_mem apart inside]
    rfl

theorem mem_of_mem_foldl_put {entries base : Entries α} {entry : String × α}
    (member : entry ∈ entries.foldl (fun entries entry => put entries entry.1 entry.2) base) : entry ∈ base ∨ entry ∈ entries := by
  induction entries generalizing base with
  | nil => exact .inl member
  | cons first rest ih =>
    obtain inside | inside := ih member
    · obtain rfl | inside := eq_or_mem_of_mem_put inside
      · exact .inr (List.mem_cons_self ..)
      · exact .inl inside
    · exact .inr (List.mem_cons_of_mem _ inside)

theorem isSome_get?_foldl_put {entries : Entries α} (base : Entries α) {name : String} (member : (get? base name).isSome ∨ name ∈ names entries) :
    (get? (entries.foldl (fun entries entry => put entries entry.1 entry.2) base) name).isSome := by
  induction entries generalizing base with
  | nil => exact member.resolve_right nofun
  | cons first rest ih =>
    refine ih _ ?_
    rw [get?_put]
    split
    next => exact .inl rfl
    next apart => exact member.imp_right fun inside => (List.mem_cons.1 inside).resolve_left apart

theorem get?_foldl_put_of_notMem {entries base : Entries α} {name : String} (absent : name ∉ names entries) :
    get? (entries.foldl (fun entries entry => put entries entry.1 entry.2) base) name = get? base name := by
  induction entries generalizing base with
  | nil => rfl
  | cons first rest ih =>
    rw [names, List.map_cons, List.mem_cons, not_or] at absent
    rw [List.foldl_cons, ih absent.2, get?_put, if_neg absent.1]

theorem isSome_get?_iff {entries : Entries α} {name : String} : (get? entries name).isSome ↔ name ∈ names entries := by
  constructor
  · intro found
    obtain ⟨value, isValue⟩ := Option.isSome_iff_exists.1 found
    exact List.mem_map.2 ⟨_, mem_of_get? isValue, rfl⟩
  · intro member
    induction entries with
    | nil => cases member
    | cons entry rest ih =>
      obtain ⟨head, value⟩ := entry
      rw [get?_cons]
      split
      next => rfl
      next apart => exact ih ((List.mem_cons.1 member).resolve_left apart)

/-- Of several values put under one name the last is found. -/
theorem get?_ofList (pairs : List (String × α)) (name : String) : get? (ofList pairs) name = get? pairs.reverse name := by
  induction pairs using List.reverseRecOn with
  | nil => rfl
  | append_singleton front last ih =>
    have puts : ofList (front ++ [last]) = put (ofList front) last.1 last.2 := by
      rw [ofList, List.foldl_append]
      rfl
    rw [puts, get?_put, ih, List.reverse_append]
    exact (get?_cons ..).symm

/-- Entries of other names can be left out. -/
theorem get?_filter {entries : Entries α} {keeps : String → Bool} {name : String} (kept : keeps name = true) :
    get? (List.filter (fun entry => keeps entry.1) entries) name = get? entries name := by
  induction entries with
  | nil => rfl
  | cons entry rest ih =>
    obtain ⟨head, value⟩ := entry
    by_cases keepsHead : keeps head = true
    · rw [List.filter_cons_of_pos (a := (head, value)) keepsHead, get?_cons, get?_cons, ih]
    · have apart : name ≠ head := by
        rintro rfl
        exact keepsHead kept
      rw [List.filter_cons_of_neg (a := (head, value)) keepsHead, get?_cons, if_neg apart, ih]

/-- The order of entries with names of their own does not matter. -/
theorem get?_eq_of_perm {entries others : Entries α} (perm : entries.Perm others) (apart : (names entries).Nodup) (name : String) :
    get? entries name = get? others name := by
  have apartOthers : (names others).Nodup := (perm.map _).nodup_iff.1 apart
  refine Option.ext fun value => ⟨fun found => ?_, fun found => ?_⟩
  · exact get?_of_mem apartOthers (perm.mem_iff.1 (mem_of_get? found))
  · exact get?_of_mem apart (perm.mem_iff.2 (mem_of_get? found))

end ReactiveMarkup.Entries
