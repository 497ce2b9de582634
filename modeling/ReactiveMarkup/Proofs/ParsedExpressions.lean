import ReactiveMarkup.Proofs.AcceptedTexts
import ReactiveMarkup.Proofs.PrintedExpressions

/-! Every expression that is read from a text can be spelled: names are no keywords, numbers
have no sign, and a shorthand stands for its own key. -/

namespace ReactiveMarkup

theorem Number.bitsOfRatio_le (numerator denominator : Nat) : bitsOfRatio numerator denominator ≤ infiniteBits := by
  rw [bitsOfRatio]
  split
  · exact Nat.zero_le _
  · exact Nat.min_le_left ..

namespace Expression

theorem unsigned_ofDigits (whole fraction : List Char) (exponent : Int) :
    Unsigned (Number.ofDigits false whole fraction exponent) := by
  rw [Number.ofDigits, Number.Decimal.toFloat]
  split
  · exact ⟨0, Nat.zero_le _, rfl⟩
  split
  · exact ⟨Number.infiniteBits, Nat.le_refl _, rfl⟩
  split
  · exact ⟨0, Nat.zero_le _, rfl⟩
  · exact ⟨_, Number.bitsOfRatio_le _ _, rfl⟩

/-- A token as the scanner makes it. -/
def Sane : Lexeme → Prop
  | .identifier name => Named name
  | .keyword name => Text.isIdentifier name = true
  | .number value => Unsigned value
  | _ => True

theorem sane_word {name : String} (spelled : Text.isIdentifier name = true) : Sane (word name) := by
  rw [word]
  split
  next => exact spelled
  next other => exact ⟨spelled, by simpa using other⟩

theorem sane_scanNumber (chars : List Char) : Sane (scanNumber chars).1 := by
  simp only [scanNumber]
  split
  · split
    · split
      · trivial
      · exact unsigned_ofDigits ..
    · exact unsigned_ofDigits ..
  · exact unsigned_ofDigits ..

theorem sane_scanLexeme (c : Char) (rest : List Char) : Sane (scanLexeme c rest).1 := by
  rw [scanLexeme]
  split
  next start =>
    refine sane_word ?_
    rw [Text.isIdentifier, String.toList_ofList]
    simp [start]
  split
  next => exact sane_scanNumber _
  split
  next => trivial
  split
  next =>
    dsimp only
    split <;> trivial
  next =>
    rw [scanOperator]
    split <;> trivial

theorem sane_tokens (offset : Nat) (chars : List Char) : ∀ token ∈ tokens offset chars, Sane token.lexeme := by
  fun_induction tokens offset chars with
  | case1 => intro token member; cases member
  | case2 offset c rest blank ih => exact ih
  | case3 offset c rest visible lexeme width scanned token ih =>
    intro other member
    obtain rfl | member := List.mem_cons.1 member
    · have sane := sane_scanLexeme c rest
      rwa [scanned] at sane
    · exact ih other member

theorem formed_atom {lexeme : Lexeme} {e : Expression} (sane : Sane lexeme) (atom : atom? lexeme = some e) : Formed Unsigned e := by
  rw [atom?.eq_def] at atom
  split at atom
  · cases atom; exact .number sane
  · cases atom; exact .string _
  · cases atom; exact .identifier sane
  · cases atom; exact .boolean true
  · cases atom; exact .boolean false
  · cases atom; exact .null
  · cases atom; exact .undefined
  · cases atom; exact .this
  · cases atom

theorem mem_separated (trailing : Bool) {parts : List (List Lexeme)} {part : List Lexeme} (among : part ∈ parts) {lexeme : Lexeme}
    (inside : lexeme ∈ part) : lexeme ∈ separated trailing parts := by
  induction parts with
  | nil => cases among
  | cons first more ih =>
    cases more with
    | nil =>
      rw [List.mem_singleton] at among
      subst among
      cases trailing <;> simp [separated, inside]
    | cons next others =>
      rw [separated, List.mem_append]
      obtain rfl | among := List.mem_cons.1 among
      · exact .inl inside
      · exact .inr (List.mem_cons_of_mem _ (ih among))

theorem Heads.named {front : List Lexeme} {params : List String} (heads : Heads front params) (sane : ∀ lexeme ∈ front, Sane lexeme) :
    ∀ name ∈ params, Named name := by
  intro name member
  cases heads with
  | name only =>
    rw [List.mem_singleton] at member
    subst member
    exact sane _ (List.mem_singleton_self _)
  | names =>
    have among : [Lexeme.identifier name] ∈ params.map fun name => [Lexeme.identifier name] := List.mem_map_of_mem member
    have inside := mem_separated false among (List.mem_singleton_self _)
    rw [separated_false] at inside
    exact sane _ (List.mem_append_left _ (List.mem_cons_of_mem _ inside))

/-- What is derived from tokens of the scanner can be spelled. -/
theorem formed_of_derives {place : Place} {spelling : List Lexeme} {e : Expression} (derives : Derives place spelling e)
    (sane : ∀ lexeme ∈ spelling, Sane lexeme) : Formed Unsigned e := by
  induction derives with
  | arrow heads _ _ ih =>
    simp only [List.forall_mem_append, List.forall_mem_cons] at sane
    exact .arrow (heads.named sane.1) (ih sane.2.2)
  | conditional _ _ _ ih ihConsequent ihAlternate =>
    simp only [List.forall_mem_append, List.forall_mem_cons] at sane
    exact .conditional (ih sane.1) (ihConsequent sane.2.2.1) (ihAlternate sane.2.2.2.2)
  | binary operator _ _ _ ih ihRight =>
    simp only [List.forall_mem_append, List.forall_mem_cons] at sane
    exact .binary operator (ih sane.1) (ihRight sane.2.2)
  | power _ _ ih ihExponent =>
    simp only [List.forall_mem_append, List.forall_mem_cons] at sane
    exact .binary .power (ih sane.1) (ihExponent sane.2.2)
  | unary operator _ ih =>
    simp only [List.forall_mem_cons] at sane
    exact .unary operator (ih sane.2)
  | @member _ _ lexeme _ optional _ found ih =>
    simp only [List.forall_mem_append, List.forall_mem_cons] at sane
    refine .member optional (ih sane.1) ?_
    have named := sane.2.2.1
    cases lexeme with
    | identifier name =>
      cases found
      exact named.1
    | keyword name =>
      cases found
      exact named
    | _ => cases found
  | index optional _ _ ih ihKey =>
    simp only [List.forall_mem_append, List.forall_mem_cons] at sane
    exact .index optional (ih sane.1) (ihKey sane.2.1.2.2)
  | @call _ _ arguments optional trailing _ _ ih ihAll =>
    simp only [List.forall_mem_append, List.forall_mem_cons] at sane
    refine .call optional (ih sane.1) fun e member => ?_
    obtain ⟨item, among, rfl⟩ := List.mem_map.1 member
    exact ihAll item among fun lexeme inside => sane.2.1.2.2 lexeme (mem_separated trailing (List.mem_map_of_mem among) inside)
  | atom found => exact formed_atom (sane _ (List.mem_singleton_self _)) found
  | enclosed _ ih =>
    simp only [List.forall_mem_append, List.forall_mem_cons] at sane
    exact ih sane.1.2
  | @array items trailing _ ih =>
    simp only [List.forall_mem_append, List.forall_mem_cons] at sane
    refine .array fun e member => ?_
    obtain ⟨item, among, rfl⟩ := List.mem_map.1 member
    exact ih item among fun lexeme inside => sane.1.2 lexeme (mem_separated trailing (List.mem_map_of_mem among) inside)
  | @object entries trailing _ _ ih =>
    simp only [List.forall_mem_append, List.forall_mem_cons] at sane
    have saneEntry : ∀ entry ∈ entries, ∀ lexeme ∈ entry.spelling, Sane lexeme := fun entry among lexeme inside =>
      sane.1.2 lexeme (mem_separated trailing (List.mem_map_of_mem among) inside)
    refine .object (fun p member => ?_) fun p member short => ?_
    · obtain ⟨entry, among, rfl⟩ := List.mem_map.1 member
      have saneOne := saneEntry entry among
      cases entry with
      | shorthand name => exact .identifier (saneOne _ (List.mem_singleton_self _))
      | keyed lexeme key spelling value =>
        refine ih lexeme key spelling value among fun other inside => saneOne other ?_
        exact List.mem_cons_of_mem _ (List.mem_cons_of_mem _ inside)
    · obtain ⟨entry, among, rfl⟩ := List.mem_map.1 member
      cases entry with
      | shorthand name => rfl
      | keyed lexeme key spelling value => cases short
  | noArrow _ ih | noCondition _ ih | operand _ _ _ ih | noPower _ ih | noSign _ ih => exact ih sane

/-- An expression read at a place of a text can be spelled. -/
theorem formed_of_parseAt {start behind : Cursor} {e : Expression} (parsed : parseAt start = .ok (e, behind)) : Formed Unsigned e := by
  obtain ⟨cut, rest, stops, _, derives⟩ := exists_stops_of_parseAt parsed
  refine formed_of_derives derives fun lexeme member => ?_
  obtain ⟨token, among, rfl⟩ := List.mem_map.1 member
  exact sane_tokens _ _ token (stops.all ▸ List.mem_append_left rest among)

end Expression

end ReactiveMarkup
