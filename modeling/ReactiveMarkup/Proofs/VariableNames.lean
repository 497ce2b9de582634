import Mathlib.Data.List.Perm.Subperm
import Mathlib.Data.List.Nodup
import ReactiveMarkup.Program.Lowering
import ReactiveMarkup.Proofs.PrintedMarkup

/-! The variables of generated code: constants for elements are named apart from each other, and
neither they nor the variables of components are mistaken for anything else. -/

namespace ReactiveMarkup.Lowering

/-! Constants. -/

theorem candidates_nodup (base : String) (count : Nat) :
    (base :: (List.range count).map fun n => base ++ "_" ++ toString (n + 2)).Nodup := by
  rw [List.nodup_cons, List.mem_map]
  constructor
  · rintro ⟨n, _, same⟩
    have size := congrArg String.length same
    simp only [String.length_append] at size
    have : ("_" : String).length = 1 := rfl
    omega
  · refine List.Nodup.map (fun n m same => ?_) List.nodup_range
    have digits : Nat.toDigits 10 (n + 2) = Nat.toDigits 10 (m + 2) :=
      String.ofList_injective ((String.append_right_inj (base ++ "_")).1 same)
    have values := congrArg (Nat.ofDigitChars 10 · 0) digits
    simpa only [Nat.ofDigitChars_ten_toDigits, Nat.add_right_cancel_iff] using values

/-- There is one candidate more than there are taken variables. -/
theorem find?_candidates (taken : List String) (base : String) :
    (base :: (List.range taken.length).map fun n => base ++ "_" ++ toString (n + 2)).find? (fun name => !taken.contains name) =
      some (freshVariable taken base) := by
  rw [freshVariable]
  generalize same : (base :: (List.range taken.length).map fun n => base ++ "_" ++ toString (n + 2)) = candidates
  cases found : candidates.find? fun name => !taken.contains name with
  | some name => rfl
  | none =>
    have inside : candidates ⊆ taken := fun name member => by simpa using List.find?_eq_none.1 found name member
    subst same
    have few := (List.subperm_of_subset (candidates_nodup base taken.length) inside).length_le
    simp at few

theorem freshVariable_notMem (taken : List String) (base : String) : freshVariable taken base ∉ taken := by
  simpa using List.find?_some (find?_candidates taken base)

/-- What stands behind the name for a tag is a number at most. -/
theorem freshVariable_front (taken : List String) (base : String) :
    ∃ behind, freshVariable taken base = base ++ behind ∧ ∀ c ∈ behind.toList, Text.isIdentifierPart c = true := by
  obtain isBase | member := List.mem_cons.1 (List.mem_of_find?_eq_some (find?_candidates taken base))
  · exact ⟨"", by rw [isBase, String.append_empty], nofun⟩
  · obtain ⟨n, _, isName⟩ := List.mem_map.1 member
    refine ⟨"_" ++ toString (n + 2), by rw [← isName, String.append_assoc], fun c inside => ?_⟩
    rw [String.toList_append, List.mem_append] at inside
    obtain dash | digit := inside
    · rw [List.mem_singleton.1 dash]
      rfl
    · have isDigit : c.isDigit = true := Nat.isDigit_of_mem_toDigits (by decide) (by decide) (String.toList_ofList ▸ digit)
      rw [Text.isIdentifierPart, isDigit, Bool.or_true]

/-! Components. -/

theorem toNat_of_isTagPart {c : Char} (part : Text.isTagPart c = true) : c.toNat < 128 := by
  simp only [Text.isTagPart, Char.isAlphanum, Char.isAlpha, Char.isUpper, Char.isLower, Char.isDigit, Bool.or_eq_true, Bool.and_eq_true,
    decide_eq_true_eq, ge_iff_le, UInt32.le_iff_toNat_le, Char.toNat_val, beq_iff_eq] at part
  have dash : '-'.toNat = 45 := rfl
  have underscore : '_'.toNat = 95 := rfl
  have small : 'z'.toNat = 122 := rfl
  have capital : 'Z'.toNat = 90 := rfl
  have digit : '9'.toNat = 57 := rfl
  obtain ((((⟨_, _⟩ | ⟨_, _⟩) | ⟨_, _⟩) | rfl) | rfl) := part <;> omega

/-- Tags are spelled in few characters, so that each can be looked at. -/
theorem isTagPart_toUpper {c : Char} (part : Text.isTagPart c = true) :
    Text.isTagPart c.toUpper = true ∧ c.toUpper.isLower = false ∧ c ≠ '$' := by
  have each : ∀ n < 128, Text.isTagPart (Char.ofNat n) = true →
      Text.isTagPart (Char.ofNat n).toUpper = true ∧ (Char.ofNat n).toUpper.isLower = false ∧ Char.ofNat n ≠ '$' := by
    decide
  rw [← Char.ofNat_toNat c] at part ⊢
  exact each c.toNat (toNat_of_isTagPart (by rwa [Char.ofNat_toNat] at part)) part

theorem isTagPart_camelFrom {chars : List Char} (parts : ∀ c ∈ chars, Text.isTagPart c = true) (pending : Nat) :
    ∀ c ∈ Name.camelFrom pending chars, Text.isTagPart c = true := by
  have dashes (count : Nat) : ∀ c ∈ List.replicate count '-', Text.isTagPart c = true := by
    intro c member
    rw [List.eq_of_mem_replicate member]
    rfl
  induction chars generalizing pending with
  | nil => exact dashes pending
  | cons c rest ih =>
    obtain ⟨part, parts⟩ := List.forall_mem_cons.1 parts
    rw [Name.camelFrom]
    split
    · exact ih parts (pending + 1)
    split
    · exact List.forall_mem_cons.2 ⟨(isTagPart_toUpper part).1, ih parts 0⟩
    · exact List.forall_mem_append.2 ⟨dashes pending, List.forall_mem_cons.2 ⟨part, ih parts 0⟩⟩

theorem ofTag_spelled {tag : String} (parts : ∀ c ∈ tag.toList, Text.isTagPart c = true) :
    (∀ c ∈ (Name.ofTag tag).toList, Text.isTagPart c = true) ∧ ∀ c ∈ (Name.ofTag tag).toList.head?, c.isLower = false := by
  have spelled := isTagPart_camelFrom parts 0
  rw [Name.ofTag]
  cases same : Name.camelFrom 0 tag.toList with
  | nil => simp
  | cons first rest =>
    rw [same] at spelled
    obtain ⟨part, parts⟩ := List.forall_mem_cons.1 spelled
    obtain ⟨upper, notSmall, _⟩ := isTagPart_toUpper part
    have isUpper : Text.upper first = [first.toUpper] := if_pos (toNat_of_isTagPart part)
    dsimp only
    rw [isUpper, String.toList_ofList, List.singleton_append]
    exact ⟨List.forall_mem_cons.2 ⟨upper, parts⟩, fun c isHead => Option.some.inj isHead ▸ notSmall⟩

/-- The first character of the variable of a component is no small letter. -/
theorem head?_sanitize_ofTag {tag : String} (parts : ∀ c ∈ tag.toList, Text.isTagPart c = true) :
    ∀ c ∈ (Text.sanitize (Name.ofTag tag)).toList.head?, c.isLower = false := by
  intro c isHead
  rw [Text.sanitize, String.toList_map, List.head?_map] at isHead
  obtain ⟨first, isFirst, rfl⟩ := Option.map_eq_some_iff.1 isHead
  split
  · exact (ofTag_spelled parts).2 first isFirst
  · rfl

/-- The variable of a component has no dollar sign and is not the one for the controller. -/
theorem sanitize_ofTag {tag : String} (parts : ∀ c ∈ tag.toList, Text.isTagPart c = true) :
    '$' ∉ (Text.sanitize (Name.ofTag tag)).toList ∧ Text.sanitize (Name.ofTag tag) ≠ controllerName := by
  constructor
  · rw [Text.sanitize, String.toList_map, List.mem_map]
    rintro ⟨c, member, isDollar⟩
    split at isDollar
    · exact (isTagPart_toUpper ((ofTag_spelled parts).1 c member)).2.2 isDollar
    · exact absurd isDollar (by decide)
  · intro same
    have small := head?_sanitize_ofTag parts 'c' (by rw [same]; rfl)
    cases small

end ReactiveMarkup.Lowering
