import ReactiveMarkup.Proofs.ModulePaths

/-! What the path from a directory to a file starts with. A module loader reads it as relative by
its first part, while it is written out as it is as soon as its first character is a point: the two
differ where a name starts with a point. -/

namespace ReactiveMarkup.Path

/-- What a module loader takes for a path from the importing module, and not for a package. -/
def ReadsRelative (path : List Char) : Prop :=
  path = up ∨ ['.', '/'] <+: path ∨ ['.', '.', '/'] <+: path

instance (path : List Char) : Decidable (ReadsRelative path) :=
  inferInstanceAs (Decidable (_ ∨ _ ∨ _))

/-- The name of something hidden. -/
def Hidden (segment : List Char) : Prop := segment.head? = some '.' ∧ segment ≠ up

theorem head?_join {first : List Char} (rest : List (List Char)) (some : first ≠ []) :
    (join (first :: rest)).head? = first.head? := by
  cases rest with
  | nil => rfl
  | cons =>
    rw [join]
    · exact List.head?_append_of_ne_nil _ some
    · exact fun isLast => absurd isLast (List.cons_ne_nil _ _)

/-- Which parts read as relative is up to the first of them. -/
theorem readsRelative_join {first : List Char} {rest : List (List Char)} (whole : ∀ part ∈ first :: rest, '/' ∉ part)
    (leads : Leads first) : ReadsRelative (join (first :: rest)) ↔ first = up := by
  have parts : split (join (first :: rest)) = first :: rest := split_join (List.cons_ne_nil _ _) whole
  constructor
  · rintro (same | ⟨after, same⟩ | ⟨after, same⟩)
    · rw [same] at parts
      exact (List.cons.inj parts).1.symm
    · have : split (['.', '/'] ++ after) = ['.'] :: split after := split_append ['.'] after
      rw [same, parts] at this
      exact absurd (List.cons.inj this).1 leads.2
    · have : split (['.', '.', '/'] ++ after) = up :: split after := split_append up after
      rw [same, parts] at this
      exact (List.cons.inj this).1
  · rintro rfl
    cases rest with
    | nil => exact .inl rfl
    | cons second others => exact .inr (.inr ⟨join (second :: others), rfl⟩)

/-! The parts of the path from a directory to a file. -/

/-- The ways up out of the directory, and the names down to the file. -/
def between (directory file : List Char) : List (List Char) :=
  let rest := dropCommon (segments directory) (segments file)
  rest.1.map (fun _ => up) ++ rest.2

theorem toList_relative (directory file : String) :
    (relative directory file).toList =
      let path := join (between directory.toList file.toList)
      if path.head? = some '.' then path else '.' :: '/' :: path := by
  rw [relative, String.toList_ofList]
  simp only [filter_split_normalizeChars]
  rfl

theorem dropCommon_append (front back : List (List Char)) : dropCommon front (front ++ back) = ([], back) := by
  induction front with
  | nil => cases back <;> rfl
  | cons first rest ih => rw [List.cons_append, dropCommon, if_pos rfl, ih]

/-- The path starts with a name that is not a way up where the file lies below the directory. -/
theorem between_eq_cons {directory file first : List Char} {rest : List (List Char)} (down : first ≠ up) :
    between directory file = first :: rest ↔ segments file = segments directory ++ first :: rest := by
  constructor
  · intro parts
    obtain ⟨common, isDirectory, isFile⟩ := dropCommon_spec (segments directory) (segments file)
    rw [between] at parts
    generalize dropCommon (segments directory) (segments file) = remaining at parts isDirectory isFile
    obtain ⟨above, below⟩ := remaining
    cases above with
    | nil => rw [isDirectory, isFile, List.append_nil, ← parts]; rfl
    | cons => exact absurd (List.cons.inj parts).1.symm down
  · intro below
    rw [between, below, dropCommon_append]
    rfl

theorem leads_of_mem_between {directory file part : List Char} (member : part ∈ between directory file) :
    Leads part ∧ '/' ∉ part := by
  obtain ⟨common, _, isFile⟩ := dropCommon_spec (segments directory) (segments file)
  obtain member | member := List.mem_append.1 member
  · obtain ⟨_, _, rfl⟩ := List.mem_map.1 member
    exact ⟨⟨List.cons_ne_nil _ _, by decide⟩, by decide⟩
  · have inFile : part ∈ segments file := isFile ▸ List.mem_append_right common member
    exact ⟨leads_of_mem_segments inFile, notMem_of_mem_segments inFile⟩

/-- The path from a directory to a file reads as relative unless the file is reached through something
hidden that lies in the directory itself. -/
theorem readsRelative_relative (directory file : String) :
    ReadsRelative (relative directory file).toList ↔
      ¬ ∃ segment rest, segments file.toList = segments directory.toList ++ segment :: rest ∧ Hidden segment := by
  have inDirectory (segment : List Char) (rest : List (List Char)) (hidden : Hidden segment) :
      segments file.toList = segments directory.toList ++ segment :: rest ↔
        between directory.toList file.toList = segment :: rest := (between_eq_cons hidden.2).symm
  have facts : ∀ part ∈ between directory.toList file.toList, Leads part ∧ '/' ∉ part :=
    fun part member => leads_of_mem_between member
  rw [toList_relative]
  generalize between directory.toList file.toList = parts at inDirectory facts
  cases parts with
  | nil =>
    refine iff_of_true (.inr (.inl ⟨[], rfl⟩)) fun found => ?_
    obtain ⟨segment, rest, below, hidden⟩ := found
    exact List.cons_ne_nil _ _ ((inDirectory segment rest hidden).1 below).symm
  | cons first rest =>
    have leads : Leads first := (facts first (List.mem_cons_self ..)).1
    have whole : ∀ part ∈ first :: rest, '/' ∉ part := fun part member => (facts part member).2
    dsimp only
    rw [head?_join rest leads.1]
    by_cases pointed : first.head? = some '.'
    · rw [if_pos pointed, readsRelative_join whole leads]
      constructor
      · intro isUp found
        obtain ⟨segment, others, below, hidden⟩ := found
        exact hidden.2 ((List.cons.inj ((inDirectory segment others hidden).1 below)).1.symm.trans isUp)
      · intro shown
        by_contra down
        exact shown ⟨first, rest, (inDirectory first rest ⟨pointed, down⟩).2 rfl, pointed, down⟩
    · rw [if_neg pointed]
      refine iff_of_true (.inr (.inl ⟨join (first :: rest), rfl⟩)) fun found => ?_
      obtain ⟨segment, others, below, hidden⟩ := found
      exact pointed ((List.cons.inj ((inDirectory segment others hidden).1 below)).1 ▸ hidden.1)

/-- A hidden directory of shared components, from the directory above it. -/
theorem not_readsRelative_hidden :
    relative "/src" "/src/.hidden/x.js" = ".hidden/x.js" ∧
      ¬ ReadsRelative (relative "/src" "/src/.hidden/x.js").toList := by
  decide

end ReactiveMarkup.Path
