import ReactiveMarkup.Proofs.Derivations

/-! The parser of expressions comes to an end on any tokens: the bound on its depth is never
reached, and a fault stands at a token or at the end of the text.

Sixteen times the number of tokens left, and a little more at each parser, bounds the depth. A
parser hands the same tokens on only to parsers that need less. -/

namespace ReactiveMarkup.Expression

/-- The tokens that are left stand at the end of the given ones, and a fault is not the depth but
points at one of them. -/
inductive Settles {α : Type} (tokens : List Token) : Parsed (α × List Token) → Prop where
  | ok {value : α} {rest : List Token} (left : rest <:+ tokens) : Settles tokens (.ok (value, rest))
  | error {fault : Fault} (shallow : fault.problem ≠ .depth) (placed : ∀ offset ∈ fault.offset?, offset ∈ tokens.map Token.start) :
    Settles tokens (.error fault)

variable {α β : Type} {tokens rest : List Token}

theorem Settles.widen {parsed : Parsed (α × List Token)} (settles : Settles rest parsed) (left : rest <:+ tokens) :
    Settles tokens parsed := by
  cases settles with
  | ok inner => exact .ok (inner.trans left)
  | error shallow placed => exact .error shallow fun offset member => (left.map Token.start).subset (placed offset member)

theorem Settles.cons {parsed : Parsed (α × List Token)} (settles : Settles rest parsed) (token : Token) : Settles (token :: rest) parsed :=
  settles.widen (List.suffix_cons token rest)

theorem Settles.bind {first : Parsed (α × List Token)} {next : α × List Token → Parsed (β × List Token)} (settles : Settles tokens first)
    (then' : ∀ value rest, rest <:+ tokens → Settles rest (next (value, rest))) : Settles tokens (first >>= next) := by
  cases settles with
  | ok left => exact (then' _ _ left).widen left
  | error shallow placed => exact .error shallow placed

theorem settles_at {token : Token} {problem : Problem} (shallow : problem ≠ .depth) :
    Settles (token :: rest) (.error ⟨some token.start, problem⟩ : Parsed (α × List Token)) := by
  refine .error shallow ?_
  intro offset member
  cases member
  exact List.mem_cons_self

theorem settles_end {problem : Problem} (shallow : problem ≠ .depth) :
    Settles tokens (.error ⟨none, problem⟩ : Parsed (α × List Token)) := by
  refine .error shallow ?_
  intro offset member
  cases member

theorem settles_unexpected (token : Token) :
    Settles (token :: rest) (.error (unexpected token) : Parsed (α × List Token)) := by
  rw [unexpected]
  split
  next => exact settles_at (by simp)
  next => exact settles_at (by simp)

theorem settles_next {next : Token × List Token → Parsed (β × List Token)}
    (then' : ∀ token rest, tokens = token :: rest → Settles tokens (next (token, rest))) :
    Settles tokens (Expression.next tokens >>= next) := by
  cases tokens with
  | nil => exact settles_end (by simp)
  | cons token rest =>
    rw [Expression.next]
    split
    next => exact settles_unexpected token
    next => exact then' token rest rfl

theorem settles_expectMark {mark : Char} {next : List Token → Parsed (β × List Token)}
    (then' : ∀ token rest, tokens = token :: rest → Settles rest (next rest)) : Settles tokens (expectMark mark tokens >>= next) := by
  cases tokens with
  | nil => exact settles_end (by simp)
  | cons token rest =>
    rw [expectMark]
    split
    next =>
      split
      next => exact (then' token rest rfl).cons token
      next => exact settles_at (by simp)
    next => exact settles_at (by simp)

theorem settles_propertyName : Settles tokens (propertyName tokens) := by
  refine settles_next ?_
  rintro token rest rfl
  dsimp only
  split
  next => exact .ok (List.suffix_cons token rest)
  next => exact .ok (List.suffix_cons token rest)
  next => exact settles_unexpected token

theorem suffix_of_arrowHead? {params : List String} (found : arrowHead? tokens = some (params, rest)) :
    rest <:+ tokens ∧ rest.length < tokens.length := by
  obtain ⟨cut, start, chars, _, rfl, _⟩ := eq_of_arrowHead? found
  refine ⟨⟨cut ++ [⟨.operator "=>", start, chars⟩], by simp⟩, ?_⟩
  simp only [List.length_append, List.length_cons]
  omega

/-- All parsers, each with the room that it needs. -/
structure Settled (depth : Nat) : Prop where
  expression (tokens : List Token) (room : 16 * tokens.length + 15 ≤ depth) : Settles tokens (parseExpression depth tokens)
  conditional (tokens : List Token) (room : 16 * tokens.length + 14 ≤ depth) : Settles tokens (parseConditional depth tokens)
  level {level : Nat} (small : level ≤ 7) (tokens : List Token) (room : 16 * tokens.length + 14 ≤ depth + level) :
    Settles tokens (parseLevel depth level tokens)
  more {level : Nat} (small : level ≤ 6) (left : Expression) (tokens : List Token) (room : 16 * tokens.length + 1 ≤ depth) :
    Settles tokens (parseMore depth level left tokens)
  power (tokens : List Token) (room : 16 * tokens.length + 6 ≤ depth) : Settles tokens (parsePower depth tokens)
  unary (tokens : List Token) (room : 16 * tokens.length + 5 ≤ depth) : Settles tokens (parseUnary depth tokens)
  links (receiver : Expression) (tokens : List Token) (room : 16 * tokens.length + 4 ≤ depth) :
    Settles tokens (parseLinks depth receiver tokens)
  index (receiver : Expression) (optional : Bool) (tokens : List Token) (room : 16 * tokens.length + 16 ≤ depth) :
    Settles tokens (parseIndex depth receiver optional tokens)
  call (callee : Expression) (optional : Bool) (tokens : List Token) (room : 16 * tokens.length + 17 ≤ depth) :
    Settles tokens (parseCall depth callee optional tokens)
  list (close : Char) (tokens : List Token) (room : 16 * tokens.length + 16 ≤ depth) : Settles tokens (parseList depth close tokens)
  primary (tokens : List Token) (room : 16 * tokens.length + 4 ≤ depth) : Settles tokens (parsePrimary depth tokens)
  properties (tokens : List Token) (room : 16 * tokens.length + 2 ≤ depth) : Settles tokens (parseProperties depth tokens)
  property (tokens : List Token) (room : 16 * tokens.length + 1 ≤ depth) : Settles tokens (parseProperty depth tokens)

section Step

variable {depth : Nat}

private theorem Settled.expression_succ (settled : Settled depth) (tokens : List Token) (room : 16 * tokens.length + 15 ≤ depth + 1) :
    Settles tokens (parseExpression (depth + 1) tokens) := by
  rw [parseExpression]
  split
  next params body found =>
    obtain ⟨left, shorter⟩ := suffix_of_arrowHead? found
    refine Settles.widen ?_ left
    split
    next start chars rest => exact settles_at (show Problem.arrowBlock ≠ .depth by simp)
    next => exact (settled.expression body (by omega)).bind fun _ _ _ => .ok (List.suffix_refl _)
  next => exact settled.conditional tokens (by omega)

private theorem Settled.conditional_succ (settled : Settled depth) (tokens : List Token) (room : 16 * tokens.length + 14 ≤ depth + 1) :
    Settles tokens (parseConditional (depth + 1) tokens) := by
  rw [parseConditional]
  refine (settled.level (by decide) tokens (by omega)).bind fun test rest left => ?_
  have shorter := left.length_le
  dsimp only
  split
  next => exact .ok (List.suffix_refl _)
  next behind found =>
    obtain ⟨start, chars, rfl⟩ := eq_of_afterOperator? found
    rw [List.length_cons] at shorter
    refine Settles.cons ((settled.expression behind (by omega)).bind fun consequent rest left => ?_) _
    have consequentShorter := left.length_le
    refine settles_expectMark ?_
    rintro token rest rfl
    rw [List.length_cons] at consequentShorter
    exact (settled.expression rest (by omega)).bind fun _ _ _ => .ok (List.suffix_refl _)

private theorem Settled.level_succ (settled : Settled depth) {level : Nat} (small : level ≤ 7) (tokens : List Token)
    (room : 16 * tokens.length + 14 ≤ depth + 1 + level) : Settles tokens (parseLevel (depth + 1) level tokens) := by
  rw [parseLevel]
  split
  next lower =>
    refine (settled.level (by omega) tokens (by omega)).bind fun operand rest left => ?_
    have shorter := left.length_le
    exact settled.more (by omega) operand rest (by omega)
  next high => exact settled.power tokens (by omega)

private theorem Settled.more_succ (settled : Settled depth) {level : Nat} (small : level ≤ 6) (left : Expression) (tokens : List Token)
    (room : 16 * tokens.length + 1 ≤ depth + 1) : Settles tokens (parseMore (depth + 1) level left tokens) := by
  rw [parseMore]
  split
  next => exact .ok (List.suffix_refl _)
  next operator behind found =>
    obtain ⟨_, start, chars, rfl⟩ := eq_of_operatorAt? found
    rw [List.length_cons] at room
    refine Settles.cons ((settled.level (by omega) behind (by omega)).bind fun right rest left => ?_) _
    have shorter := left.length_le
    exact settled.more small _ rest (by omega)

private theorem Settled.power_succ (settled : Settled depth) (tokens : List Token) (room : 16 * tokens.length + 6 ≤ depth + 1) :
    Settles tokens (parsePower (depth + 1) tokens) := by
  rw [parsePower]
  refine (settled.unary tokens (by omega)).bind fun base rest left => ?_
  have shorter := left.length_le
  dsimp only
  split
  next => exact .ok (List.suffix_refl _)
  next behind found =>
    obtain ⟨start, chars, rfl⟩ := eq_of_afterOperator? found
    rw [List.length_cons] at shorter
    refine Settles.cons ?_ _
    exact (settled.power behind (by omega)).bind fun _ _ _ => .ok (List.suffix_refl _)

private theorem Settled.unary_succ (settled : Settled depth) (tokens : List Token) (room : 16 * tokens.length + 5 ≤ depth + 1) :
    Settles tokens (parseUnary (depth + 1) tokens) := by
  rw [parseUnary]
  split
  next operator behind found =>
    obtain ⟨start, chars, rfl⟩ := eq_of_unaryAt? found
    rw [List.length_cons] at room
    refine Settles.cons ?_ _
    exact (settled.unary behind (by omega)).bind fun _ _ _ => .ok (List.suffix_refl _)
  next =>
    refine (settled.primary tokens (by omega)).bind fun receiver rest left => ?_
    have shorter := left.length_le
    exact settled.links receiver rest (by omega)

private theorem Settled.member (settled : Settled depth) (receiver : Expression) (optional : Bool) (tokens : List Token)
    (room : 16 * tokens.length + 4 ≤ depth) : Settles tokens (do
      let (name, rest) ← propertyName tokens
      parseLinks depth (.member receiver name optional) rest) := by
  refine settles_propertyName.bind fun name rest left => ?_
  have shorter := left.length_le
  exact settled.links _ rest (by omega)

private theorem Settled.links_succ (settled : Settled depth) (receiver : Expression) (tokens : List Token)
    (room : 16 * tokens.length + 4 ≤ depth + 1) : Settles tokens (parseLinks (depth + 1) receiver tokens) := by
  rw [parseLinks.eq_def]
  dsimp only
  split
  next => exact Settles.cons (settled.member receiver false _ (by simp only [List.length_cons] at room; omega)) _
  next => exact Settles.cons (settled.index receiver false _ (by simp only [List.length_cons] at room; omega)) _
  next => exact Settles.cons (settled.call receiver false _ (by simp only [List.length_cons] at room; omega)) _
  next =>
    split
    next => exact Settles.cons (Settles.cons (settled.call receiver true _ (by simp only [List.length_cons] at room; omega)) _) _
    next => exact Settles.cons (Settles.cons (settled.index receiver true _ (by simp only [List.length_cons] at room; omega)) _) _
    next => exact Settles.cons (settled.member receiver true _ (by simp only [List.length_cons] at room; omega)) _
  next => exact .ok (List.suffix_refl _)

private theorem Settled.index_succ (settled : Settled depth) (receiver : Expression) (optional : Bool) (tokens : List Token)
    (room : 16 * tokens.length + 16 ≤ depth + 1) : Settles tokens (parseIndex (depth + 1) receiver optional tokens) := by
  rw [parseIndex]
  refine (settled.expression tokens (by omega)).bind fun key rest left => ?_
  have shorter := left.length_le
  refine settles_expectMark ?_
  rintro token rest rfl
  rw [List.length_cons] at shorter
  exact settled.links _ rest (by omega)

private theorem Settled.call_succ (settled : Settled depth) (callee : Expression) (optional : Bool) (tokens : List Token)
    (room : 16 * tokens.length + 17 ≤ depth + 1) : Settles tokens (parseCall (depth + 1) callee optional tokens) := by
  rw [parseCall]
  refine (settled.list ')' tokens (by omega)).bind fun arguments rest left => ?_
  have shorter := left.length_le
  exact settled.links _ rest (by omega)

/-- Items separated by commas up to a closing mark. -/
private theorem settles_items {item : Parsed (α × List Token)} {others : List Token → Parsed (List α × List Token)} {close : Char}
    (settles : Settles tokens item) (more : ∀ token rest, token :: rest <:+ tokens → Settles rest (others rest)) :
    Settles tokens (do
      let (first, rest) ← item
      match afterMark? ',' rest with
      | some rest =>
        let (others, rest) ← others rest
        return (first :: others, rest)
      | none => return ([first], ← expectMark close rest)) := by
  refine settles.bind fun first rest left => ?_
  dsimp only
  split
  next behind found =>
    obtain ⟨start, chars, rfl⟩ := eq_of_afterMark? found
    refine Settles.cons ?_ _
    exact (more _ behind left).bind fun _ _ _ => .ok (List.suffix_refl _)
  next => exact settles_expectMark fun _ _ _ => .ok (List.suffix_refl _)

private theorem Settled.list_succ (settled : Settled depth) (close : Char) (tokens : List Token)
    (room : 16 * tokens.length + 16 ≤ depth + 1) : Settles tokens (parseList (depth + 1) close tokens) := by
  rw [parseList]
  split
  next behind found =>
    obtain ⟨start, chars, rfl⟩ := eq_of_afterMark? found
    exact .ok (List.suffix_cons _ behind)
  next =>
    refine settles_items (settled.expression tokens (by omega)) fun token rest left => ?_
    have shorter := left.length_le
    rw [List.length_cons] at shorter
    exact settled.list close rest (by omega)

private theorem Settled.primary_succ (settled : Settled depth) (tokens : List Token) (room : 16 * tokens.length + 4 ≤ depth + 1) :
    Settles tokens (parsePrimary (depth + 1) tokens) := by
  rw [parsePrimary]
  refine settles_next ?_
  rintro token rest rfl
  rw [List.length_cons] at room
  dsimp only
  split
  next =>
    refine Settles.cons ((settled.expression rest (by omega)).bind fun inner rest _ => ?_) token
    exact settles_expectMark fun _ _ _ => .ok (List.suffix_refl _)
  next =>
    refine Settles.cons ?_ token
    exact (settled.list ']' rest (by omega)).bind fun _ _ _ => .ok (List.suffix_refl _)
  next =>
    refine Settles.cons ?_ token
    exact (settled.properties rest (by omega)).bind fun _ _ _ => .ok (List.suffix_refl _)
  next =>
    split
    next => exact .ok (List.suffix_cons token rest)
    next => exact settles_unexpected token

private theorem Settled.properties_succ (settled : Settled depth) (tokens : List Token) (room : 16 * tokens.length + 2 ≤ depth + 1) :
    Settles tokens (parseProperties (depth + 1) tokens) := by
  rw [parseProperties]
  split
  next behind found =>
    obtain ⟨start, chars, rfl⟩ := eq_of_afterMark? found
    exact .ok (List.suffix_cons _ behind)
  next =>
    refine settles_items (settled.property tokens (by omega)) fun token rest left => ?_
    have shorter := left.length_le
    rw [List.length_cons] at shorter
    exact settled.properties rest (by omega)

private theorem Settled.property_succ (settled : Settled depth) (tokens : List Token) (room : 16 * tokens.length + 1 ≤ depth + 1) :
    Settles tokens (parseProperty (depth + 1) tokens) := by
  rw [parseProperty]
  refine settles_next ?_
  rintro token rest rfl
  rw [List.length_cons] at room
  dsimp only
  split
  next => exact .ok (List.suffix_cons token rest)
  next =>
    split
    next => exact settles_unexpected token
    next key found =>
      refine Settles.cons (settles_expectMark ?_) token
      rintro colon rest rfl
      rw [List.length_cons] at room
      exact (settled.expression rest (by omega)).bind fun _ _ _ => .ok (List.suffix_refl _)

end Step

theorem settled (depth : Nat) : Settled depth := by
  induction depth with
  | zero => constructor <;> intros <;> omega
  | succ depth ih =>
    exact {
      expression := ih.expression_succ
      conditional := ih.conditional_succ
      level := ih.level_succ
      more := ih.more_succ
      power := ih.power_succ
      unary := ih.unary_succ
      links := ih.links_succ
      index := ih.index_succ
      call := ih.call_succ
      list := ih.list_succ
      primary := ih.primary_succ
      properties := ih.properties_succ
      property := ih.property_succ }

theorem settles_parseTokens (tokens : List Token) : Settles tokens (parseTokens tokens) :=
  (settled _).expression tokens (by omega)

end ReactiveMarkup.Expression
