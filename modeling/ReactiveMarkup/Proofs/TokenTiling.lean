import ReactiveMarkup.Proofs.AcceptedTexts
import ReactiveMarkup.Proofs.BytewiseLexing

/-! Tokens tile the text. Between them, in front of them and behind them there is nothing but
blanks, and each takes up a part of the text of its own, faulty ones included. -/

namespace ReactiveMarkup.Expression

open Text

/-- Where the scanner stands behind some of the tokens from an offset on. -/
def endOf (offset : Nat) (tokens : List Token) : Nat := (tokens.getLast?.map Token.stop).getD offset

/-- Where some of the tokens start; where the text ends if there are none. -/
def startOf (text : List Char) (tokens : List Token) : Nat := (tokens.head?.map Token.start).getD (byteSize text)

/-- Tokens that tile a text from an offset on. -/
structure Tiles (text : List Char) (offset : Nat) (tokens : List Token) : Prop where
  /-- Spans are not empty and lie within the text, between characters. -/
  spans : ∀ token ∈ tokens, offset ≤ token.start ∧ token.start < token.stop ∧ token.stop ≤ byteSize text ∧
    slice? token.start token.stop text = some token.chars
  /-- Spans are disjoint, and later tokens stand further behind. -/
  ordered : tokens.Pairwise fun first second => first.start < second.start ∧ first.stop ≤ second.start
  /-- Wherever the tokens are parted, there is nothing but blanks between the two parts. -/
  gaps : ∀ before behind, tokens = before ++ behind →
    ∃ gap, slice? (endOf offset before) (startOf text behind) text = some gap ∧ ∀ c ∈ gap, isBlank c = true

variable {offset : Nat} {chars text : List Char}

theorem all_isBlank_of_tokens_nil (none : tokens offset chars = []) : ∀ c ∈ chars, isBlank c = true := by
  fun_induction tokens offset chars with
  | case1 => exact List.forall_mem_nil _
  | case2 offset c rest blank ih => exact List.forall_mem_cons.2 ⟨blank, ih none⟩
  | case3 => cases none

/-- What the first token is cut from, and where the others are. -/
theorem exists_of_tokens_cons {first : Token} {more : List Token} (cut : tokens offset chars = first :: more) :
    ∃ gap behind, chars = gap ++ (first.chars ++ behind) ∧ (∀ c ∈ gap, isBlank c = true) ∧ first.chars ≠ [] ∧
      first.start = offset + byteSize gap ∧ more = tokens first.stop behind := by
  fun_induction tokens offset chars with
  | case1 => cases cut
  | case2 offset c rest blank ih =>
    obtain ⟨gap, behind, rfl, blanks, filled, start, isMore⟩ := ih cut
    exact ⟨c :: gap, behind, rfl, List.forall_mem_cons.2 ⟨blank, blanks⟩, filled, by rw [start, byteSize, Nat.add_assoc], isMore⟩
  | case3 offset c rest visible lexeme width scanned token =>
    obtain ⟨rfl, rfl⟩ := List.cons.inj cut
    exact ⟨[], rest.drop (width - 1), by simp [token], List.forall_mem_nil _, List.cons_ne_nil _ _, rfl, rfl⟩

theorem endOf_cons (offset : Nat) (first : Token) (more : List Token) : endOf offset (first :: more) = endOf first.stop more := by
  cases more with
  | nil => rfl
  | cons second rest =>
    obtain ⟨last, isLast⟩ := Option.ne_none_iff_exists'.1 (List.getLast?_eq_none_iff.not.2 (List.cons_ne_nil second rest))
    rw [endOf, endOf, List.getLast?_cons_cons, isLast]
    rfl

/-- Behind some of the tokens the others are cut from what is left of the text. -/
theorem exists_left {before behind : List Token} (reaches : Reaches text offset chars) (parted : tokens offset chars = before ++ behind) :
    ∃ left, Reaches text (endOf offset before) left ∧ tokens (endOf offset before) left = behind := by
  induction before generalizing offset chars with
  | nil => exact ⟨chars, reaches, parted⟩
  | cons first more ih =>
    obtain ⟨gap, rest, rfl, _, _, start, isMore⟩ := exists_of_tokens_cons parted
    rw [endOf_cons]
    refine ih ?_ isMore.symm
    rw [Token.stop, start]
    exact reaches.add.add

theorem exists_gap {before behind : List Token} (reaches : Reaches text offset chars) (parted : tokens offset chars = before ++ behind) :
    ∃ gap, slice? (endOf offset before) (startOf text behind) text = some gap ∧ ∀ c ∈ gap, isBlank c = true := by
  obtain ⟨left, reached, cut⟩ := exists_left reaches parted
  cases behind with
  | nil =>
    refine ⟨left, ?_, all_isBlank_of_tokens_nil cut⟩
    rw [startOf, List.head?_nil, Option.map_none, Option.getD_none, ← reached.size]
    exact Reaches.slice? (by rwa [List.append_nil])
  | cons first more =>
    obtain ⟨gap, rest, rfl, blanks, _, start, _⟩ := exists_of_tokens_cons cut
    refine ⟨gap, ?_, blanks⟩
    rw [startOf, List.head?_cons, Option.map_some, Option.getD_some, start]
    exact reached.slice?

theorem span_of_mem {token : Token} (reaches : Reaches text offset chars) (member : token ∈ tokens offset chars) :
    offset ≤ token.start ∧ token.start < token.stop ∧ token.stop ≤ byteSize text ∧ slice? token.start token.stop text = some token.chars := by
  obtain ⟨before, behind, parted⟩ := List.append_of_mem member
  obtain ⟨left, reached, cut⟩ := exists_left reaches parted
  obtain ⟨gap, rest, rfl, _, filled, start, _⟩ := exists_of_tokens_cons cut
  have stands : Reaches text token.start (token.chars ++ rest) := start ▸ reached.add
  obtain ⟨_, _, _, further⟩ := mem_tokens member
  refine ⟨by omega, Nat.lt_add_of_pos_right ?_, ?_, stands.slice?⟩
  · exact Nat.pos_of_ne_zero fun empty => filled (byteSize_eq_zero empty)
  · have size := stands.add.size
    rw [Token.stop]
    omega

theorem tiles_tokens (reaches : Reaches text offset chars) : Tiles text offset (tokens offset chars) where
  spans _ member := span_of_mem reaches member
  ordered := by
    refine (pairwise_tokens offset chars).imp_of_mem fun {first second} member _ apart => ⟨?_, apart⟩
    have span := span_of_mem reaches member
    omega
  gaps _ _ parted := exists_gap reaches parted

/-- The stream of tokens tiles the text. From any place between characters the scanner comes to an end
with finitely many tokens, which tile what is behind that place. -/
theorem tokensFrom_tiles (reaches : Reaches text offset chars) :
    Bytewise.tokensFrom text offset = some (tokens offset chars) ∧ Tiles text offset (tokens offset chars) :=
  ⟨Bytewise.tokensFrom_eq reaches, tiles_tokens reaches⟩

/-- Faulty tokens only, the last of which ends with the text while the scanner is past it. -/
theorem tokensFrom_tiles_faults :
    Reaches "é 1e+ \"x\\".toList 2 " 1e+ \"x\\".toList ∧
      Bytewise.tokensFrom "é 1e+ \"x\\".toList 2 =
        some [⟨.fault .exponent, 3, ['1', 'e', '+']⟩, ⟨.fault .unterminated, 7, ['"', 'x', '\\']⟩] ∧
      Tiles "é 1e+ \"x\\".toList 2 [⟨.fault .exponent, 3, ['1', 'e', '+']⟩, ⟨.fault .unterminated, 7, ['"', 'x', '\\']⟩] := by
  have reaches : Reaches "é 1e+ \"x\\".toList 2 " 1e+ \"x\\".toList := ⟨['é'], rfl, rfl⟩
  have cut : tokens 2 " 1e+ \"x\\".toList =
      [⟨.fault .exponent, 3, ['1', 'e', '+']⟩, ⟨.fault .unterminated, 7, ['"', 'x', '\\']⟩] := by
    have exponent : scanLexeme '1' ['e', '+', ' ', '"', 'x', '\\'] = (.fault .exponent, 3) := rfl
    have unterminated : scanLexeme '"' ['x', '\\'] = (.fault .unterminated, 3) := rfl
    show tokens 2 [' ', '1', 'e', '+', ' ', '"', 'x', '\\'] = _
    rw [tokens, if_pos (by decide), tokens, if_neg (by decide), exponent]
    show _ :: tokens 6 [' ', '"', 'x', '\\'] = _
    rw [tokens, if_pos (by decide), tokens, if_neg (by decide), unterminated]
    show _ :: _ :: tokens 10 [] = _
    rw [tokens]
    rfl
  obtain ⟨scanned, tiles⟩ := tokensFrom_tiles reaches
  rw [cut] at scanned tiles
  exact ⟨reaches, scanned, tiles⟩

end ReactiveMarkup.Expression
