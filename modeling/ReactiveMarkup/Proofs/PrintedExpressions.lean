import ReactiveMarkup.Proofs.Rereading

/-! An expression that was printed is read back where it stands, if its numbers are finite and
no body of an arrow function starts with a brace. An infinite number is printed like a name. -/

namespace ReactiveMarkup.Expression

/-- A number without a sign, which may be infinite. -/
def Unsigned (value : Float) : Prop := ∃ bits, bits ≤ Number.infiniteBits ∧ value = Number.signed false bits

theorem Numeric.unsigned {value : Float} (numeric : Numeric value) : Unsigned value := by
  obtain ⟨bits, small, same⟩ := numeric_iff.1 numeric
  exact ⟨bits, Nat.le_of_lt small, same⟩

theorem not_isFinite_infinite : Number.isFinite (Number.signed false Number.infiniteBits) = false := by
  rw [Number.isFinite, Number.parts_signed (Nat.le_refl _)]
  decide

theorem numeric_or_infinite {value : Float} (unsigned : Unsigned value) :
    (Numeric value ∧ Number.isFinite value = true) ∨
      (value = Number.signed false Number.infiniteBits ∧ Number.isFinite value = false) := by
  obtain ⟨bits, small, rfl⟩ := unsigned
  obtain less | same : bits < Number.infiniteBits ∨ bits = Number.infiniteBits := by omega
  · exact .inl ⟨numeric_iff.2 ⟨bits, less, rfl⟩, Number.isFinite_signed less⟩
  · subst same
    exact .inr ⟨rfl, not_isFinite_infinite⟩

theorem Unsigned.beq_self {value : Float} (unsigned : Unsigned value) : (value == value) = true := by
  obtain ⟨bits, small, rfl⟩ := unsigned
  exact Number.signed_beq_self small

def finiteNumber : Expression → Bool
  | .literal (.number value) => Number.isFinite value
  | _ => true

mutual
/-- The expression with a name in place of every infinite number. -/
@[simp]
def tame : Expression → Expression
  | .literal (.number value) => if Number.isFinite value then .literal (.number value) else .identifier "inf"
  | .array elements => .array (tameAll elements)
  | .object properties => .object (tameProperties properties)
  | .member receiver property optional => .member (tame receiver) property optional
  | .index receiver key optional => .index (tame receiver) (tame key) optional
  | .call callee arguments optional => .call (tame callee) (tameAll arguments) optional
  | .unary operator operand => .unary operator (tame operand)
  | .binary operator left right => .binary operator (tame left) (tame right)
  | .conditional test consequent alternate => .conditional (tame test) (tame consequent) (tame alternate)
  | .arrow params body => .arrow params (tame body)
  | e => e

@[simp]
def tameAll : List Expression → List Expression
  | [] => []
  | first :: rest => tame first :: tameAll rest

@[simp]
def tameProperties : List (Property Expression) → List (Property Expression)
  | [] => []
  | ⟨key, value, shorthand⟩ :: rest => ⟨key, tame value, shorthand⟩ :: tameProperties rest
end

theorem tameAll_eq_map (elements : List Expression) : tameAll elements = elements.map tame := by
  induction elements with
  | nil => rfl
  | cons first rest ih => rw [tameAll, ih, List.map_cons]

theorem tameProperties_eq_map (properties : List (Property Expression)) :
    tameProperties properties = properties.map fun p => ⟨p.key, tame p.value, p.shorthand⟩ := by
  induction properties with
  | nil => rfl
  | cons first rest ih => rw [tameProperties, ih, List.map_cons]

theorem rank_tame (e : Expression) : rank (tame e) = rank e := by
  cases e with
  | literal value =>
    cases value with
    | number value =>
      rw [tame]
      split <;> rfl
    | _ => rfl
  | _ => rfl

theorem isObject_tame (e : Expression) : isObject (tame e) = isObject e := by
  cases e with
  | literal value =>
    cases value with
    | number value =>
      rw [tame]
      split <;> rfl
    | _ => rfl
  | _ => rfl

theorem formed_tame {e : Expression} (formed : Formed Unsigned e) : Formed Numeric (tame e) := by
  induction formed with
  | @number value allowed =>
    rw [tame]
    obtain ⟨numeric, finite⟩ | ⟨_, infinite⟩ := numeric_or_infinite allowed
    · rw [if_pos finite]
      exact .number numeric
    · rw [if_neg (by simp [infinite])]
      exact .identifier ⟨by decide, by decide⟩
  | string value => exact .string value
  | boolean value => exact .boolean value
  | null => exact .null
  | undefined => exact .undefined
  | identifier named => exact .identifier named
  | this => exact .this
  | array _ ih =>
    rw [tame, tameAll_eq_map]
    refine .array fun e member => ?_
    obtain ⟨original, inside, rfl⟩ := List.mem_map.1 member
    exact ih original inside
  | object _ shorthands ih =>
    rw [tame, tameProperties_eq_map]
    refine .object (fun p member => ?_) fun p member short => ?_
    · obtain ⟨original, inside, rfl⟩ := List.mem_map.1 member
      exact ih original inside
    · obtain ⟨original, inside, rfl⟩ := List.mem_map.1 member
      exact congrArg tame (shorthands original inside short)
  | member optional _ spelled ih => exact .member optional ih spelled
  | index optional _ _ ih ihKey => exact .index optional ih ihKey
  | call optional _ _ ih ihAll =>
    rw [tame, tameAll_eq_map]
    refine .call optional ih fun e member => ?_
    obtain ⟨original, inside, rfl⟩ := List.mem_map.1 member
    exact ihAll original inside
  | unary operator _ ih => exact .unary operator ih
  | binary operator _ _ ihLeft ihRight => exact .binary operator ihLeft ihRight
  | conditional _ _ _ ihTest ihConsequent ihAlternate => exact .conditional ihTest ihConsequent ihAlternate
  | arrow named _ ih => exact .arrow named ih

theorem print_tame {e : Expression} (formed : Formed Unsigned e) : print (tame e) = print e := by
  induction formed with
  | @number value allowed =>
    rw [tame]
    obtain ⟨_, finite⟩ | ⟨same, infinite⟩ := numeric_or_infinite allowed
    · rw [if_pos finite]
    · rw [if_neg (by simp [infinite]), same]
      exact numeral_infinite.symm
  | @array elements _ ih =>
    have same : (elements.map tame).map print = elements.map print := by
      rw [List.map_map]
      exact List.map_congr_left ih
    rw [tame, tameAll_eq_map, print, print, printAll_eq_map, printAll_eq_map, same]
  | @object properties _ _ ih =>
    have same : (properties.map fun p => (⟨p.key, tame p.value, p.shorthand⟩ : Property Expression)).map printProperty =
        properties.map printProperty := by
      rw [List.map_map]
      refine List.map_congr_left fun p member => ?_
      simp only [Function.comp, printProperty, ih p member]
    rw [tame, tameProperties_eq_map, print, print, printProperties_eq_map, printProperties_eq_map, same]
    simp
  | @call callee arguments optional _ _ ih ihAll =>
    have same : (arguments.map tame).map print = arguments.map print := by
      rw [List.map_map]
      exact List.map_congr_left ihAll
    rw [tame, tameAll_eq_map, print, print, printAll_eq_map, printAll_eq_map, same, rank_tame, ih]
  | member optional _ _ ih => simp only [tame, print, rank_tame, ih]
  | index optional _ _ ih ihKey => simp only [tame, print, rank_tame, ih, ihKey]
  | unary operator _ ih => simp only [tame, print, rank_tame, ih]
  | binary operator _ _ ihLeft ihRight => simp only [tame, print, rank_tame, ihLeft, ihRight]
  | conditional _ _ _ ihTest ihConsequent ihAlternate =>
    simp only [tame, print, rank_tame, ihTest, ihConsequent, ihAlternate]
  | arrow _ _ ih => simp only [tame, print, isObject_tame, ih]
  | _ => rfl

theorem clear_tame {e : Expression} (formed : Formed Unsigned e) : everywhere clearBody (tame e) = everywhere clearBody e := by
  have all {elements : List Expression} (ih : ∀ e ∈ elements, everywhere clearBody (tame e) = everywhere clearBody e) :
      everywhereAll clearBody (tameAll elements) = everywhereAll clearBody elements := by
    induction elements with
    | nil => rfl
    | cons first rest inner =>
      rw [tameAll, everywhereAll, everywhereAll, ih first (List.mem_cons_self ..),
        inner fun e member => ih e (List.mem_cons_of_mem _ member)]
  induction formed with
  | @number value allowed =>
    rw [tame]
    split <;> rfl
  | array _ ih => simp only [tame, everywhere, clearBody, all ih]
  | @object properties _ _ ih =>
    have inside : everywhereProperties clearBody (tameProperties properties) = everywhereProperties clearBody properties := by
      clear * - ih
      induction properties with
      | nil => rfl
      | cons first rest inner =>
        rw [tameProperties, everywhereProperties, everywhereProperties, ih first (List.mem_cons_self ..),
          inner fun p member => ih p (List.mem_cons_of_mem _ member)]
    simp only [tame, everywhere, clearBody, inside]
  | call optional _ _ ih ihAll => simp only [tame, everywhere, clearBody, ih, all ihAll]
  | member optional _ _ ih => simp only [tame, everywhere, clearBody, ih]
  | index optional _ _ ih ihKey => simp only [tame, everywhere, clearBody, ih, ihKey]
  | unary operator _ ih => simp only [tame, everywhere, clearBody, ih]
  | binary operator _ _ ihLeft ihRight => simp only [tame, everywhere, clearBody, ihLeft, ihRight]
  | conditional _ _ _ ihTest ihConsequent ihAlternate => simp only [tame, everywhere, clearBody, ihTest, ihConsequent, ihAlternate]
  | arrow _ formed ih => simp only [tame, everywhere, clearBody, isObject_tame, bracesFirst, print_tame formed, ih]
  | _ => rfl

/-- Only an infinite number makes a difference. -/
theorem same_tame {e : Expression} (formed : Formed Unsigned e) : same e (tame e) = everywhere finiteNumber e := by
  have all {elements : List Expression} (ih : ∀ e ∈ elements, same e (tame e) = everywhere finiteNumber e) :
      sameAll elements (tameAll elements) = everywhereAll finiteNumber elements := by
    induction elements with
    | nil => rfl
    | cons first rest inner =>
      rw [tameAll, sameAll, everywhereAll, ih first (List.mem_cons_self ..),
        inner fun e member => ih e (List.mem_cons_of_mem _ member)]
  induction formed with
  | @number value allowed =>
    rw [tame]
    obtain ⟨_, finite⟩ | ⟨_, infinite⟩ := numeric_or_infinite allowed
    · simp only [finite, if_true, same, Literal.same, everywhere, finiteNumber, allowed.beq_self]
    · simp only [infinite, everywhere, finiteNumber]
      rfl
  | array _ ih => simp only [tame, same, everywhere, finiteNumber, all ih, Bool.true_and]
  | @object properties _ _ ih =>
    have inside : sameProperties properties (tameProperties properties) = everywhereProperties finiteNumber properties := by
      clear * - ih
      induction properties with
      | nil => rfl
      | cons first rest inner =>
        rw [tameProperties, sameProperties, everywhereProperties, ih first (List.mem_cons_self ..),
          inner fun p member => ih p (List.mem_cons_of_mem _ member)]
        simp
    simp only [tame, same, everywhere, finiteNumber, inside, Bool.true_and]
  | call optional _ _ ih ihAll => simp [tame, same, everywhere, finiteNumber, ih, all ihAll]
  | member optional _ _ ih => simp [tame, same, everywhere, finiteNumber, ih]
  | index optional _ _ ih ihKey => simp [tame, same, everywhere, finiteNumber, ih, ihKey]
  | unary operator _ ih => simp [tame, same, everywhere, finiteNumber, ih]
  | binary operator _ _ ihLeft ihRight => simp [tame, same, everywhere, finiteNumber, ihLeft, ihRight]
  | conditional _ _ _ ihTest ihConsequent ihAlternate =>
    simp [tame, same, everywhere, finiteNumber, ihTest, ihConsequent, ihAlternate, Bool.and_assoc]
  | arrow _ _ ih => simp [tame, same, everywhere, finiteNumber, ih]
  | identifier _ => simp [tame, same, everywhere, finiteNumber]
  | string value => simp [tame, same, Literal.same, everywhere, finiteNumber]
  | boolean value => simp [tame, same, Literal.same, everywhere, finiteNumber]
  | null => rfl
  | undefined => rfl
  | this => rfl

theorem tame_of_finite {e : Expression} (formed : Formed Unsigned e) (finite : everywhere finiteNumber e = true) : tame e = e := by
  have all {elements : List Expression} (ih : ∀ e ∈ elements, everywhere finiteNumber e = true → tame e = e)
      (finite : everywhereAll finiteNumber elements = true) : tameAll elements = elements := by
    induction elements with
    | nil => rfl
    | cons first rest inner =>
      rw [everywhereAll, Bool.and_eq_true] at finite
      rw [tameAll, ih first (List.mem_cons_self ..) finite.1,
        inner (fun e member => ih e (List.mem_cons_of_mem _ member)) finite.2]
  induction formed with
  | number allowed => exact if_pos finite
  | array _ ih =>
    simp only [everywhere, finiteNumber, Bool.true_and] at finite
    rw [tame, all ih finite]
  | @object properties _ _ ih =>
    simp only [everywhere, finiteNumber, Bool.true_and] at finite
    have inside : tameProperties properties = properties := by
      clear * - ih finite
      induction properties with
      | nil => rfl
      | cons first rest inner =>
        rw [everywhereProperties, Bool.and_eq_true] at finite
        rw [tameProperties, ih first (List.mem_cons_self ..) finite.1,
          inner (fun p member => ih p (List.mem_cons_of_mem _ member)) finite.2]
    rw [tame, inside]
  | call optional _ _ ih ihAll =>
    simp only [everywhere, finiteNumber, Bool.true_and, Bool.and_eq_true] at finite
    rw [tame, ih finite.1, all ihAll finite.2]
  | member optional _ _ ih => rw [tame, ih finite]
  | index optional _ _ ih ihKey =>
    simp only [everywhere, finiteNumber, Bool.true_and, Bool.and_eq_true] at finite
    rw [tame, ih finite.1, ihKey finite.2]
  | unary operator _ ih => rw [tame, ih finite]
  | binary operator _ _ ihLeft ihRight =>
    simp only [everywhere, finiteNumber, Bool.true_and, Bool.and_eq_true] at finite
    rw [tame, ihLeft finite.1, ihRight finite.2]
  | conditional _ _ _ ihTest ihConsequent ihAlternate =>
    simp only [everywhere, finiteNumber, Bool.true_and, Bool.and_eq_true] at finite
    rw [tame, ihTest finite.1, ihConsequent finite.2.1, ihAlternate finite.2.2]
  | arrow _ _ ih => rw [tame, ih finite]
  | _ => rfl

/-! Reading at a place in a text. -/

/-- What may follow a printed expression: no token that it could be a part of. -/
def Behind (rest : List Char) : Prop := Apart rest ∧ ∀ offset, Ends 0 (tokens offset rest)

theorem parseAt_numeric {e : Expression} (formed : Formed Numeric e) {rest : List Char} (behind : Behind rest) (offset : Nat) :
    (parseAt ⟨offset, (print e).toList ++ rest⟩).toOption =
      (reread e).map (·, ⟨offset + Text.byteSize (print e).toList, rest⟩) := by
  have spells := spells_print formed
  obtain ⟨cut, same, cutTokens, stop⟩ := spells.lexes offset rest behind.1
  have parsed := parseTokens_lexemes formed same (behind.2 (offset + Text.byteSize (print e).toList))
  have nonempty : cut ≠ [] := by
    rintro rfl
    exact spells.nonempty same.symm
  have lastOf : cut.getLast? = some (cut.getLast nonempty) := List.getLast?_eq_some_getLast nonempty
  simp only [parseAt, cutTokens, toOption_bind, parsed]
  cases reread e with
  | none => rfl
  | some again =>
    simp only [Option.map_some, Option.bind_some, List.length_append, Nat.add_sub_cancel, List.take_left', lastOf, Option.elim_some,
      stop _ lastOf, Cursor.moveTo_append, toOption_pure]

/-- An expression is read back with names in place of infinite numbers. -/
theorem parseAt_print {e : Expression} (formed : Formed Unsigned e) {rest : List Char} (behind : Behind rest) (offset : Nat) :
    (parseAt ⟨offset, (print e).toList ++ rest⟩).toOption =
      if everywhere clearBody e then some (tame e, ⟨offset + Text.byteSize (print e).toList, rest⟩) else none := by
  have parsed := parseAt_numeric (formed_tame formed) behind offset
  rw [print_tame formed, reread, clear_tame formed] at parsed
  rw [parsed]
  cases everywhere clearBody e <;> rfl

/-- An expression that is read back as it was. -/
def printable (e : Expression) : Bool := everywhere clearBody e && everywhere finiteNumber e

theorem same_self {e : Expression} (formed : Formed Unsigned e) (finite : everywhere finiteNumber e = true) : same e e = true := by
  have same := same_tame formed
  rwa [tame_of_finite formed finite, finite] at same

theorem parseAt_printable {e : Expression} (formed : Formed Unsigned e) (good : printable e = true) {rest : List Char}
    (behind : Behind rest) (offset : Nat) :
    parseAt ⟨offset, (print e).toList ++ rest⟩ = .ok (e, ⟨offset + Text.byteSize (print e).toList, rest⟩) := by
  rw [printable, Bool.and_eq_true] at good
  have parsed := parseAt_print formed behind offset
  rw [if_pos good.1, tame_of_finite formed good.2] at parsed
  exact ok_of_toOption parsed

/-- No other expression is read back as one that is the same. -/
theorem printable_of_parseAt {e again : Expression} (formed : Formed Unsigned e) {rest : List Char} (behind : Behind rest)
    {offset : Nat} {cursor : Cursor} (parsed : parseAt ⟨offset, (print e).toList ++ rest⟩ = .ok (again, cursor))
    (same : same e again = true) : printable e = true ∧ again = e ∧ cursor = ⟨offset + Text.byteSize (print e).toList, rest⟩ := by
  have read := parseAt_print formed behind offset
  rw [parsed] at read
  split at read
  next clear =>
    cases read
    rw [same_tame formed] at same
    exact ⟨by rw [printable, clear, same]; rfl, tame_of_finite formed same, rfl⟩
  next => cases read

/-- A text that was printed is read as the expression that it was printed from. -/
theorem parse_print {e : Expression} (formed : Formed Numeric e) (clear : everywhere clearBody e = true) (url : String) :
    parse ⟨print e, url⟩ = .ok e := by
  have nothing : Apart [] := fun c tail same => by cases same
  obtain ⟨cut, same, cutTokens, _⟩ := (spells_print formed).lexes 0 [] nothing
  have ends : Ends 0 [] := fun token more same => by cases same
  have parsed := parseTokens_lexemes formed same ends
  rw [reread, if_pos clear] at parsed
  rw [List.append_nil, tokens] at cutTokens
  rw [parse, parseWhole]
  dsimp only
  rw [cutTokens, ok_of_toOption parsed]
  rfl

private def sampleArrow : Expression :=
  .arrow ["x"] (.binary .power (.unary .minus (.number (.ofBits 0x3ff8000000000000)))
    (.call (.member (.identifier "x") "typeof" true) [.object [⟨"a b", .string "it's", false⟩, ⟨"x", .identifier "x", true⟩]] false))

theorem parse_print_arrow : Formed Numeric sampleArrow ∧ everywhere clearBody sampleArrow = true ∧
    parse ⟨print sampleArrow, "expr"⟩ = .ok sampleArrow := by
  have named : Named "x" := ⟨by decide, by decide⟩
  have number : Numeric (.ofBits 0x3ff8000000000000) := numeric_iff.2 ⟨0x3ff8000000000000, by decide, rfl⟩
  have object : Formed Numeric (.object [⟨"a b", .string "it's", false⟩, ⟨"x", .identifier "x", true⟩]) := by
    refine .object ?_ ?_
    · rintro p member
      simp only [List.mem_cons, List.not_mem_nil, or_false] at member
      rcases member with rfl | rfl
      · exact .string _
      · exact .identifier named
    · rintro p member short
      simp only [List.mem_cons, List.not_mem_nil, or_false] at member
      rcases member with rfl | rfl
      · cases short
      · rfl
  have formed : Formed Numeric sampleArrow := by
    refine .arrow (List.forall_mem_singleton.2 named) (.binary _ (.unary _ (.number number)) (.call _ ?_ ?_))
    · exact .member _ (.identifier named) (by decide)
    · exact List.forall_mem_singleton.2 object
  have clear : everywhere clearBody sampleArrow = true := by decide +kernel
  exact ⟨formed, clear, parse_print formed clear "expr"⟩

end ReactiveMarkup.Expression
