/-!
Named entries in the order in which their names were first put.
-/

namespace ReactiveMarkup

abbrev Entries (α : Type) := List (String × α)

namespace Entries

variable {α : Type}

def get? (entries : Entries α) (name : String) : Option α := entries.lookup name

@[simp]
theorem get?_nil (name : String) : get? ([] : Entries α) name = none := rfl

@[simp]
theorem get?_cons (head : String) (value : α) (rest : Entries α) (name : String) :
    get? ((head, value) :: rest) name = if name = head then some value else get? rest name := by
  by_cases same : name = head
  · subst same; simp [get?]
  · rw [if_neg same, get?, List.lookup_cons, beq_eq_false_iff_ne.2 same, get?]

theorem mem_of_get? {entries : Entries α} {name : String} {value : α} (found : get? entries name = some value) :
    (name, value) ∈ entries := by
  obtain ⟨before, after, rfl, _⟩ := List.lookup_eq_some_iff.1 found
  simp

def contains (entries : Entries α) (name : String) : Bool := (get? entries name).isSome

def names (entries : Entries α) : List String := entries.map (·.1)

/-- A name that is present keeps its place and takes the new value. -/
def put (entries : Entries α) (name : String) (value : α) : Entries α :=
  match entries with
  | [] => [(name, value)]
  | (other, old) :: rest =>
    if other = name then (name, value) :: rest else (other, old) :: put rest name value

def erase (entries : Entries α) (name : String) : Entries α :=
  List.filter (fun entry => entry.1 != name) entries

theorem get?_put (entries : Entries α) (name other : String) (value : α) :
    get? (put entries name value) other = if other = name then some value else get? entries other := by
  induction entries with
  | nil => simp [put]
  | cons entry rest ih =>
    obtain ⟨head, old⟩ := entry
    by_cases here : head = name
    · subst here
      by_cases same : other = head <;> simp [put, same]
    · rw [put, if_neg here, get?_cons, get?_cons, ih]
      by_cases same : other = head
      · subst same
        simp [here]
      · simp [same]

theorem get?_erase (entries : Entries α) (name other : String) :
    get? (erase entries name) other = if other = name then none else get? entries other := by
  induction entries with
  | nil => simp [erase]
  | cons entry rest ih =>
    obtain ⟨head, value⟩ := entry
    by_cases here : head = name
    · subst here
      rw [erase, List.filter_cons_of_neg (by simp)]
      refine ih.trans ?_
      by_cases same : other = head <;> simp [same]
    · rw [erase, List.filter_cons_of_pos (by simpa using here), get?_cons, get?_cons]
      by_cases same : other = head
      · subst same
        simp [here]
      · rw [if_neg same, if_neg same]
        exact ih

/-- The last value put under a name wins, and the first place stays. -/
def ofList (pairs : List (String × α)) : Entries α :=
  pairs.foldl (fun entries pair => put entries pair.1 pair.2) []

end Entries

end ReactiveMarkup
