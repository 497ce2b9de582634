/-!
Counting the members of a list that have a property.
-/

namespace ReactiveMarkup

/-- A property that is stronger, and misses a member that the other one has, counts less. -/
theorem countP_lt {α : Type} (p q : α → Bool) (members : List α) (implies : ∀ a, q a = true → p a = true)
    (member : α) (inside : member ∈ members) (holds : p member = true) (fails : q member = false) :
    members.countP q < members.countP p := by
  induction members with
  | nil => simp at inside
  | cons first rest ih =>
    have rest_le : rest.countP q ≤ rest.countP p := List.countP_mono_left fun a _ => implies a
    rcases List.mem_cons.1 inside with rfl | inside
    · rw [List.countP_cons_of_pos holds, List.countP_cons_of_neg (by simp [fails])]
      omega
    · have := ih inside
      by_cases first_q : q first = true
      · rw [List.countP_cons_of_pos first_q, List.countP_cons_of_pos (implies _ first_q)]
        omega
      · rw [List.countP_cons_of_neg first_q, List.countP_cons]
        omega

end ReactiveMarkup
