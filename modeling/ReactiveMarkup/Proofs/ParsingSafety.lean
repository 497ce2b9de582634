import ReactiveMarkup.Proofs.AcceptedTexts
import ReactiveMarkup.Proofs.BytewiseMarkup
import ReactiveMarkup.Proofs.ParsedMarkup
import ReactiveMarkup.Proofs.SettledExpressions

/-! No text makes the parsers fail. The parser that takes slices reads what the parser of
characters reads: none of its slices is missing and none of its bounds is reached. -/

namespace ReactiveMarkup.Bytewise

/-- A fault that lies between characters of a text, or at its end. -/
def Placed (text : List Char) (fault : Fault) : Prop :=
  fault.problem ≠ .depth ∧ ∀ offset ∈ fault.offset?, ∃ rest, Text.Reaches text offset rest

/-- The byte at which a cursor stands in a text, with at most so many characters left. -/
structure Arrives (text : List Char) (bound byte : Nat) (cursor : Cursor) : Prop where
  same : byte = cursor.offset
  on : cursor.On text
  short : cursor.rest.length ≤ bound

/-- The same value up to the same place. -/
def Reads {α : Type} (text : List Char) (bound : Nat) (read : α × Nat) (value : α × Cursor) : Prop :=
  read.1 = value.1 ∧ Arrives text bound read.2 value.2

/-- Both parsers read something, alike in a way, or come to the same fault. -/
inductive Follows {α β : Type} (text : List Char) (alike : α → β → Prop) : Parsing α → Except Fault β → Prop where
  | ok {read : α} {value : β} (same : alike read value) : Follows text alike (pure read) (.ok value)
  | error {fault : Fault} (placed : Placed text fault) : Follows text alike (throw fault) (.error fault)

section

variable {α β γ δ : Type} {text : List Char} {cursor : Cursor} {bound : Nat} {alike : α → β → Prop} {alikeNext : γ → δ → Prop}

theorem Follows.bind {read : Parsing α} {parsed : Except Fault β} {next : α → Parsing γ} {nextParsed : β → Except Fault δ}
    (follows : Follows text alike read parsed) (then' : ∀ a b, alike a b → Follows text alikeNext (next a) (nextParsed b)) :
    Follows text alikeNext (read >>= next) (parsed >>= nextParsed) := by
  cases follows with
  | ok same => exact then' _ _ same
  | error placed => exact .error placed

/-- What is read next follows from where both parsers stand. -/
theorem Follows.thenRead {read : Parsing (α × Nat)} {parsed : Except Fault (α × Cursor)} {next : α × Nat → Parsing γ}
    {nextParsed : α × Cursor → Except Fault δ} (follows : Follows text (Reads text bound) read parsed)
    (then' : ∀ value after, after.On text → after.rest.length ≤ bound →
      Follows text alikeNext (next (value, after.offset)) (nextParsed (value, after))) :
    Follows text alikeNext (read >>= next) (parsed >>= nextParsed) := by
  refine follows.bind ?_
  rintro ⟨value, byte⟩ ⟨other, after⟩ ⟨same, arrives⟩
  obtain rfl : value = other := same
  obtain rfl : byte = after.offset := arrives.same
  exact then' value after arrives.on arrives.short

theorem Follows.thenAt {read : Parsing Nat} {parsed : Except Fault Cursor} {next : Nat → Parsing γ} {nextParsed : Cursor → Except Fault δ}
    (follows : Follows text (Arrives text bound) read parsed)
    (then' : ∀ after, after.On text → after.rest.length ≤ bound → Follows text alikeNext (next after.offset) (nextParsed after)) :
    Follows text alikeNext (read >>= next) (parsed >>= nextParsed) := by
  refine follows.bind ?_
  intro byte after arrives
  obtain rfl := arrives.same
  exact then' after arrives.on arrives.short

theorem Follows.ite {condition : Prop} [Decidable condition] {read other : Parsing α} {parsed otherParsed : Except Fault β}
    (holds : condition → Follows text alike read parsed) (fails : ¬ condition → Follows text alike other otherParsed) :
    Follows text alike (if condition then read else other) (if condition then parsed else otherParsed) := by
  split
  next yes => exact holds yes
  next no => exact fails no

theorem lift_some (value : α) : (liftM (some value) : Parsing α) = pure value := rfl

theorem Arrives.of (on : cursor.On text) (short : cursor.rest.length ≤ bound) : Arrives text bound cursor.offset cursor := ⟨rfl, on, short⟩

theorem placed_at (on : cursor.On text) {problem : Problem} (shallow : problem ≠ .depth) : Placed text (cursor.fault problem) := by
  refine ⟨shallow, ?_⟩
  intro offset member
  cases member
  exact ⟨_, on⟩

theorem length_drop_le (cursor : Cursor) (count : Nat) : (cursor.drop count).rest.length ≤ cursor.rest.length := by
  rw [Cursor.drop, List.length_drop]
  omega

/-! Runs. -/

/-- The characters in front of the first place that ends a run. -/
def runBefore (ends : List Char → Bool) : List Char → List Char
  | [] => []
  | c :: rest => if ends (c :: rest) then [] else c :: runBefore ends rest

theorem runBefore_front (ends : List Char → Bool) (chars : List Char) : runBefore ends chars <+: chars := by
  induction chars with
  | nil => exact List.nil_prefix
  | cons c rest ih =>
    rw [runBefore]
    split
    · exact List.nil_prefix
    · exact (List.prefix_cons_inj c).2 ih

theorem take_runBefore (ends : List Char → Bool) (chars : List Char) : chars.take (runBefore ends chars).length = runBefore ends chars :=
  (List.prefix_iff_eq_take.1 (runBefore_front ends chars)).symm

theorem runBefore_stops (ends : List Char → Bool) (chars : List Char) :
    chars.drop (runBefore ends chars).length = [] ∨ ends (chars.drop (runBefore ends chars).length) = true := by
  induction chars with
  | nil => exact .inl rfl
  | cons c rest ih =>
    rw [runBefore]
    split
    next stops => exact .inr stops
    next => exact ih

theorem skipUntil_eq (ends : List Char → Bool) (on : cursor.On text) :
    skipUntil text ends cursor.offset = some (cursor.drop (runBefore ends cursor.rest).length).offset := by
  rw [Cursor.drop, take_runBefore]
  dsimp only
  obtain ⟨offset, rest⟩ := cursor
  dsimp only at on ⊢
  have on : Text.Reaches text offset rest := on
  induction rest generalizing offset with
  | nil =>
    rw [skipUntil.eq_def]
    split
    next missing => rw [on.fromByte?] at missing; cases missing
    next => rfl
    next found => rw [on.fromByte?] at found; cases found
  | cons c rest ih =>
    rw [skipUntil.eq_def]
    split
    next missing => rw [on.fromByte?] at missing; cases missing
    next found => rw [on.fromByte?] at found; cases found
    next found =>
      rw [on.fromByte?] at found
      cases found
      rw [runBefore]
      split
      · rfl
      · rw [ih _ on.tail on.tail, Text.byteSize, Nat.add_assoc]

theorem slice?_drop (on : cursor.On text) (count : Nat) :
    Text.slice? cursor.offset (cursor.drop count).offset text = some (cursor.rest.take count) :=
  Text.Reaches.slice? (show Text.Reaches text cursor.offset (cursor.rest.take count ++ cursor.rest.drop count) by
    rw [List.take_append_drop]; exact on)

theorem takeWhile_eq_runBefore (p : Char → Bool) (chars : List Char) : chars.takeWhile p = runBefore (lacks p) chars := by
  induction chars with
  | nil => rfl
  | cons c rest ih =>
    rw [List.takeWhile_cons, runBefore, ← ih, lacks]
    show _ = if (!p c) = true then [] else c :: rest.takeWhile p
    cases p c <;> rfl

theorem attributeName_eq_runBefore (chars : List Char) : Markup.attributeName chars = runBefore Markup.endsName chars := by
  induction chars with
  | nil => rfl
  | cons c rest ih => rw [Markup.attributeName, runBefore, ih]

theorem textRun_eq_runBefore (chars : List Char) : Markup.textRun chars = runBefore Markup.endsText chars := by
  induction chars with
  | nil => rfl
  | cons c rest ih => rw [Markup.textRun, runBefore, ih]

theorem skipBlanks_eq (on : cursor.On text) : skipBlanks text cursor.offset = some (Markup.skipBlanks cursor).offset := by
  rw [skipBlanks, skipUntil_eq _ on, Markup.skipBlanks, takeWhile_eq_runBefore]

theorem on_skipBlanks (on : cursor.On text) : (Markup.skipBlanks cursor).On text := on.drop _

theorem short_skipBlanks (short : cursor.rest.length ≤ bound) : (Markup.skipBlanks cursor).rest.length ≤ bound :=
  Nat.le_trans (length_drop_le cursor _) short

/-! Words. -/

theorem startsAt_eq (word : String) (on : cursor.On text) : startsAt text word cursor.offset = some (Markup.startsWith cursor word) := by
  rw [startsAt, on.fromByte?]
  rfl

theorem offset_drop_of_startsWith {word : String} (starts : Markup.startsWith cursor word = true) :
    (cursor.drop word.length).offset = cursor.offset + word.utf8ByteSize ∧
      cursor.rest.length = (cursor.drop word.length).rest.length + word.length := by
  obtain ⟨more, shape⟩ := List.isPrefixOf_iff_prefix.1 starts
  rw [Cursor.drop, ← shape, ← String.length_toList, List.take_left, List.drop_left, Text.byteSize_toList, List.length_append]
  exact ⟨rfl, Nat.add_comm ..⟩

theorem follows_eat (word : String) (on : cursor.On text) (short : cursor.rest.length ≤ bound + word.length) :
    Follows text (Arrives text bound) (eat text word cursor.offset) (Markup.eat word cursor) := by
  rw [eat, Markup.eat, startsAt_eq word on, lift_some, pure_bind]
  refine .ite (fun starts => ?_) fun _ => .error (placed_at on (by simp))
  obtain ⟨offset, length⟩ := offset_drop_of_startsWith starts
  exact .ok ⟨offset.symm, on.drop _, by omega⟩

theorem eat_eq {word : String} (on : cursor.On text) (starts : Markup.startsWith cursor word = true) :
    eat text word cursor.offset = pure (cursor.drop word.length).offset := by
  rw [eat, startsAt_eq word on, lift_some, pure_bind, if_pos starts, (offset_drop_of_startsWith starts).1]

theorem afterKeyword?_eq (keyword : String) (on : cursor.On text) :
    afterKeyword? text keyword cursor.offset = some ((Markup.afterKeyword? keyword cursor).map Cursor.offset) := by
  rw [afterKeyword?, Markup.afterKeyword?, startsAt_eq keyword on]
  cases starts : Markup.startsWith cursor keyword with
  | false => rfl
  | true =>
    obtain ⟨offset, _⟩ := offset_drop_of_startsWith starts
    have behind := (on.drop keyword.length).fromByte?
    rw [offset] at behind
    simp only [Option.bind_eq_bind, Option.bind_some, if_true, behind, Bool.true_and]
    rw [← offset]
    cases (cursor.drop keyword.length).rest.head?.any Text.isIdentifierPart <;> rfl

theorem on_afterKeyword? {keyword : String} {after : Cursor} (on : cursor.On text)
    (found : Markup.afterKeyword? keyword cursor = some after) :
    after.On text ∧ cursor.rest.length = after.rest.length + keyword.length := by
  rw [Markup.afterKeyword?] at found
  split at found
  next holds =>
    cases found
    rw [Bool.and_eq_true] at holds
    exact ⟨on.drop _, (offset_drop_of_startsWith holds.1).2⟩
  next => cases found

theorem follows_eatKeyword (keyword : String) (on : cursor.On text) (short : cursor.rest.length ≤ bound + keyword.length) :
    Follows text (Arrives text bound) (eatKeyword text keyword cursor.offset) (Markup.eatKeyword keyword cursor) := by
  rw [eatKeyword, Markup.eatKeyword, afterKeyword?_eq keyword on, lift_some, pure_bind]
  cases found : Markup.afterKeyword? keyword cursor with
  | none => exact .error (placed_at on (by simp))
  | some after =>
    obtain ⟨onAfter, length⟩ := on_afterKeyword? on found
    exact .ok (.of onAfter (by omega))

theorem ended_iff (on : cursor.On text) : Text.byteSize text ≤ cursor.offset ↔ cursor.rest.isEmpty = true := by
  have size := Text.Reaches.size on
  rw [List.isEmpty_iff]
  constructor
  · intro ended
    exact Text.byteSize_eq_zero (by omega)
  · intro ended
    rw [ended, Text.byteSize] at size
    omega

theorem startsWith_append (chars : List Char) (first second : String) :
    Text.startsWith chars (first ++ second) = (Text.startsWith chars first && Text.startsWith (chars.drop first.length) second) := by
  rw [Bool.eq_iff_iff, Bool.and_eq_true]
  simp only [Text.startsWith, List.isPrefixOf_iff_prefix, String.toList_append]
  constructor
  · rintro ⟨more, shape⟩
    rw [List.append_assoc] at shape
    refine ⟨⟨_, shape⟩, more, ?_⟩
    rw [← shape, ← String.length_toList, List.drop_left]
  · rintro ⟨⟨behind, rfl⟩, more, shape⟩
    rw [← String.length_toList, List.drop_left] at shape
    exact ⟨more, by rw [List.append_assoc, shape]⟩

/-- What is behind a word in a slice of the text. -/
theorem fromByte?_of_startsWith {chars : List Char} {word : String} (starts : Text.startsWith chars word = true) :
    Text.fromByte? word.utf8ByteSize chars = some (chars.drop word.length) := by
  obtain ⟨more, rfl⟩ := List.isPrefixOf_iff_prefix.1 starts
  rw [← Text.byteSize_toList, Text.fromByte?_append, ← String.length_toList, List.drop_left]

theorem isAt_eq (ending : Markup.Ending) (on : cursor.On text) : isAt text ending cursor.offset = some (ending.isAt cursor) := by
  cases ending with
  | text =>
    rw [isAt, Markup.Ending.isAt]
    exact congrArg some (Bool.eq_iff_iff.2 (by rw [decide_eq_true_iff]; exact ended_iff on))
  | block name start => exact startsAt_eq "\x7d" on
  | tag name start =>
    rw [isAt, Markup.Ending.isAt, on.fromByte?, Markup.startsWith, startsWith_append, startsWith_append]
    simp only [Option.bind_eq_bind, Option.bind_some]
    cases opens : Text.startsWith cursor.rest "</" with
    | false => rfl
    | true =>
      have named : Text.fromByte? 2 cursor.rest = some (cursor.rest.drop "</".length) := fromByte?_of_startsWith opens
      simp only [if_true, named, Option.bind_some, Bool.true_and]
      cases names : Text.startsWith (cursor.rest.drop "</".length) name with
      | false => rfl
      | true =>
        have both : Text.startsWith cursor.rest ("</" ++ name) = true := by rw [startsWith_append, opens, names]; rfl
        have behind := fromByte?_of_startsWith both
        rw [String.utf8ByteSize_append, show "</".utf8ByteSize = 2 from rfl] at behind
        simp only [if_true, behind, Option.bind_some, Bool.true_and]
        rfl

/-! Expressions. -/

theorem follows_parseExpression (on : cursor.On text) (short : cursor.rest.length ≤ bound) :
    Follows text (Reads text bound) (parseExpression text cursor.offset) (Expression.parseAt cursor) := by
  have placed {token : Expression.Token} (member : token ∈ Expression.tokens cursor.offset cursor.rest) :
      ∃ rest, Text.Reaches text token.start rest := by
    obtain ⟨before, behind, shape, start⟩ := Expression.mem_tokens member
    rw [start]
    refine ⟨token.chars ++ behind, Text.Reaches.add ?_⟩
    rw [← List.append_assoc, ← shape]
    exact on
  rw [parseExpression, tokensFrom_eq on, lift_some, pure_bind, Expression.parseAt]
  dsimp only
  have settles := Expression.settles_parseTokens (Expression.tokens cursor.offset cursor.rest)
  generalize Expression.parseTokens (Expression.tokens cursor.offset cursor.rest) = parsed at settles ⊢
  cases settles with
  | error shallow points =>
    refine .error ⟨shallow, fun offset member => ?_⟩
    obtain ⟨token, among, rfl⟩ := List.mem_map.1 (points offset member)
    exact placed among
  | @ok expression rest left =>
    refine .ok ⟨rfl, ?_⟩
    dsimp only
    cases found : ((Expression.tokens cursor.offset cursor.rest).take
      ((Expression.tokens cursor.offset cursor.rest).length - rest.length)).getLast? with
    | none => exact .of on short
    | some token =>
      obtain ⟨before, behind, shape, start⟩ := Expression.mem_tokens (List.mem_of_mem_take (List.mem_of_getLast? found))
      have stop : token.stop = cursor.offset + Text.byteSize (before ++ token.chars) := by
        rw [Expression.Token.stop, start, Text.byteSize_append, Nat.add_assoc]
      have moved := Cursor.moveTo_append cursor.offset (before ++ token.chars) behind
      rw [← shape, ← stop] at moved
      show Arrives text bound token.stop (cursor.moveTo token.stop)
      rw [show cursor.moveTo token.stop = ⟨token.stop, behind⟩ from moved]
      refine ⟨rfl, ?_, Nat.le_trans ?_ short⟩
      · show Text.Reaches text token.stop behind
        rw [stop]
        exact Text.Reaches.add (shape ▸ on)
      · rw [shape, List.length_append]
        exact Nat.le_add_left ..

theorem Follows.eats {next : Nat → Parsing γ} {nextParsed : Cursor → Except Fault δ} (word : String) (on : cursor.On text)
    (short : cursor.rest.length ≤ bound)
    (then' : ∀ after, after.On text → after.rest.length ≤ bound → Follows text alikeNext (next after.offset) (nextParsed after)) :
    Follows text alikeNext (liftM (skipBlanks text cursor.offset) >>= fun byte => eat text word byte >>= next)
      (Markup.eat word (Markup.skipBlanks cursor) >>= nextParsed) := by
  rw [skipBlanks_eq on, lift_some, pure_bind]
  exact (follows_eat word (on_skipBlanks on) (Nat.le_add_right_of_le (short_skipBlanks short))).thenAt then'

theorem Follows.eatsKeyword {next : Nat → Parsing γ} {nextParsed : Cursor → Except Fault δ} (keyword : String) (on : cursor.On text)
    (short : cursor.rest.length ≤ bound)
    (then' : ∀ after, after.On text → after.rest.length ≤ bound → Follows text alikeNext (next after.offset) (nextParsed after)) :
    Follows text alikeNext (liftM (skipBlanks text cursor.offset) >>= fun byte => eatKeyword text keyword byte >>= next)
      (Markup.eatKeyword keyword (Markup.skipBlanks cursor) >>= nextParsed) := by
  rw [skipBlanks_eq on, lift_some, pure_bind]
  exact (follows_eatKeyword keyword (on_skipBlanks on) (Nat.le_add_right_of_le (short_skipBlanks short))).thenAt then'

theorem Follows.readsExpression {next : Expression × Nat → Parsing γ} {nextParsed : Expression × Cursor → Except Fault δ}
    (on : cursor.On text)
    (short : cursor.rest.length ≤ bound)
    (then' : ∀ value after, after.On text → after.rest.length ≤ bound →
      Follows text alikeNext (next (value, after.offset)) (nextParsed (value, after))) :
    Follows text alikeNext (liftM (skipBlanks text cursor.offset) >>= fun byte => parseExpression text byte >>= next)
      (Expression.parseAt (Markup.skipBlanks cursor) >>= nextParsed) := by
  rw [skipBlanks_eq on, lift_some, pure_bind]
  exact (follows_parseExpression (on_skipBlanks on) (short_skipBlanks short)).thenRead then'

/-! Attributes. -/

theorem boundName?_spec (mark close : Char) (small : mark.utf8Size = 1) (smallClose : close.utf8Size = 1)
    (other : mark ≠ close) (name : List Char) :
    (∃ inner, Markup.boundName? mark close name = some (.ofList inner) ∧ encloses mark close name = true ∧ 2 < Text.byteSize name ∧
      Text.slice? 1 (Text.byteSize name - 1) name = some inner) ∨
    (Markup.boundName? mark close name = none ∧ (encloses mark close name && decide (2 < Text.byteSize name)) = false) := by
  cases name with
  | nil => exact .inr ⟨rfl, rfl⟩
  | cons first rest =>
    rw [Markup.boundName?]
    split
    next found =>
      obtain ⟨rfl, ended, long⟩ := found
      obtain ⟨inner, rfl⟩ := List.getLast?_eq_some_iff.1 ended
      have longer := Text.length_le_byteSize (inner ++ [close])
      have size : Text.byteSize (first :: (inner ++ [close])) = 1 + Text.byteSize inner + 1 := by
        rw [Text.byteSize, small, Text.byteSize_append, Text.byteSize, smallClose, Text.byteSize, Nat.add_assoc]
      refine .inl ⟨inner, by rw [List.dropLast_concat], ?_, ?_, ?_⟩
      · rw [encloses, ← List.cons_append, List.getLast?_concat, List.cons_append, List.head?_cons, beq_self_eq_true, beq_self_eq_true]
        rfl
      · rw [Text.byteSize, small]
        omega
      · rw [size, Nat.add_sub_cancel]
        have start : Text.Reaches (first :: (inner ++ [close])) 1 (inner ++ [close]) := ⟨[first], rfl, small⟩
        exact start.slice?
    next no =>
      refine .inr ⟨rfl, ?_⟩
      rw [← Bool.not_eq_true, Bool.and_eq_true, decide_eq_true_eq]
      rintro ⟨both, long⟩
      rw [encloses, Bool.and_eq_true, beq_iff_eq, beq_iff_eq, List.head?_cons, Option.some_inj] at both
      obtain ⟨rfl, ended⟩ := both
      cases rest with
      | nil => exact other (Option.some_inj.1 ended)
      | cons second more =>
        rw [List.getLast?_cons_cons] at ended
        refine no ⟨rfl, ended, ?_⟩
        cases more with
        | nil =>
          obtain rfl : second = close := Option.some_inj.1 ended
          rw [Text.byteSize, small, Text.byteSize, smallClose, Text.byteSize] at long
          omega
        | cons third more => simp

theorem follows_boundValue (on : cursor.On text) (short : cursor.rest.length ≤ bound) :
    Follows text (Reads text bound) (boundValue text cursor.offset) (Markup.boundValue cursor) := by
  refine (follows_parseExpression on short).thenRead fun value after onAfter shortAfter => ?_
  refine .eats "\"" onAfter shortAfter fun last onLast shortLast => ?_
  exact .ok ⟨rfl, .of onLast shortLast⟩

theorem follows_parseAttribute (on : cursor.On text) (short : cursor.rest.length ≤ bound + 1) :
    Follows text (Reads text bound) (parseAttribute text cursor.offset) (Markup.parseAttribute cursor) := by
  rw [parseAttribute, Markup.parseAttribute, skipUntil_eq _ on, lift_some, pure_bind, slice?_drop on, lift_some, pure_bind, take_runBefore,
    ← attributeName_eq_runBefore]
  have onAfter := on.drop (Markup.attributeName cursor.rest).length
  have length : (cursor.drop (Markup.attributeName cursor.rest).length).rest.length + (Markup.attributeName cursor.rest).length =
      cursor.rest.length := by
    have fits := (runBefore_front Markup.endsName cursor.rest).length_le
    rw [← attributeName_eq_runBefore] at fits
    rw [Cursor.drop, List.length_drop]
    omega
  generalize Markup.attributeName cursor.rest = name at *
  generalize cursor.drop name.length = after at *
  dsimp only
  refine .ite (fun _ => .error (placed_at on (by simp))) fun filled => ?_
  have positive : 0 < name.length := List.length_pos_of_ne_nil fun empty => filled (by rw [empty]; rfl)
  rw [startsAt_eq "=" onAfter, lift_some, pure_bind]
  refine .ite (fun _ => .ok ⟨rfl, .of onAfter (by omega)⟩) fun equals => ?_
  rw [Bool.not_eq_true, Bool.not_eq_false'] at equals
  obtain ⟨offsetEquals, lengthEquals⟩ := offset_drop_of_startsWith equals
  have onEquals := onAfter.drop 1
  rw [show after.offset + 1 = (after.drop 1).offset from offsetEquals.symm, startsAt_eq "\"" onEquals, lift_some, pure_bind]
  refine .ite (fun _ => .error (placed_at onEquals (by simp))) fun quotes => ?_
  rw [Bool.not_eq_true, Bool.not_eq_false'] at quotes
  obtain ⟨offsetQuotes, lengthQuotes⟩ := offset_drop_of_startsWith quotes
  have onQuotes := onEquals.drop 1
  rw [show (after.drop 1).offset + 1 = ((after.drop 1).drop 1).offset from offsetQuotes.symm]
  have short : ((after.drop 1).drop 1).rest.length ≤ bound := by
    have equalsShorter := length_drop_le after 1
    have quotesShorter := length_drop_le (after.drop 1) 1
    omega
  generalize (after.drop 1).drop 1 = value at *
  obtain ⟨inner, property, encloses, long, sliced⟩ | ⟨noProperty, plain⟩ := boundName?_spec '[' ']' rfl rfl (by decide) name
  · have binding : isBinding name = true := by rw [isBinding, encloses, decide_eq_true long]; rfl
    have marked : name.head? = some '[' := (beq_iff_eq.1 (Bool.and_eq_true_iff.1 encloses).1)
    rw [if_pos binding, property]
    refine (follows_boundValue onQuotes short).thenRead fun read last onLast shortLast => ?_
    dsimp only
    rw [sliced, lift_some, pure_bind, if_pos marked]
    exact .ok ⟨rfl, .of onLast shortLast⟩
  obtain ⟨inner, event, encloses, long, sliced⟩ | ⟨noEvent, plainEvent⟩ := boundName?_spec '(' ')' rfl rfl (by decide) name
  · have binding : isBinding name = true := by rw [isBinding, encloses, decide_eq_true long, Bool.or_true]; rfl
    have marked : name.head? ≠ some '[' := by
      rw [beq_iff_eq.1 (Bool.and_eq_true_iff.1 encloses).1]
      decide
    rw [if_pos binding, noProperty, event]
    refine (follows_boundValue onQuotes short).thenRead fun read last onLast shortLast => ?_
    dsimp only
    rw [sliced, lift_some, pure_bind, if_neg marked]
    exact .ok ⟨rfl, .of onLast shortLast⟩
  · have literal : ¬ isBinding name = true := by
      rw [isBinding, Bool.and_or_distrib_right, plain, plainEvent]
      decide
    rw [if_neg literal, noProperty, noEvent, skipUntil_eq _ onQuotes, lift_some, pure_bind, slice?_drop onQuotes, lift_some, pure_bind,
      take_runBefore, takeWhile_eq_runBefore]
    have onClose := onQuotes.drop (runBefore (lacks fun c => c != '"') value.rest).length
    have shorter := length_drop_le value (runBefore (lacks fun c => c != '"') value.rest).length
    have stops : (value.drop (runBefore (lacks fun c => c != '"') value.rest).length).rest = [] ∨
        lacks (fun c => c != '"') (value.drop (runBefore (lacks fun c => c != '"') value.rest).length).rest = true :=
          runBefore_stops _ value.rest
    generalize runBefore (lacks fun c => c != '"') value.rest = content at *
    generalize value.drop content.length = close at *
    dsimp only
    rw [if_congr (ended_iff onClose) rfl rfl]
    refine .ite (fun _ => .error (placed_at on (by simp))) fun more => ?_
    have closes : Markup.startsWith close "\"" = true := by
      obtain ended | closes := stops
      · exact absurd (by rw [ended]; rfl) more
      · rw [Markup.startsWith]
        cases isRest : close.rest with
        | nil => exact absurd (by rw [isRest]; rfl) more
        | cons c rest =>
          rw [isRest] at closes
          have quote : (c == '"') = true := by simpa [lacks] using closes
          rw [beq_iff_eq.1 quote]
          rfl
    exact .ok ⟨rfl, ⟨(offset_drop_of_startsWith closes).1.symm, onClose.drop 1,
      Nat.le_trans (length_drop_le close 1) (Nat.le_trans shorter short)⟩⟩

theorem follows_parseAttributes (count : Nat) (on : cursor.On text) (room : cursor.rest.length < count)
    (short : cursor.rest.length ≤ bound) :
    Follows text (Reads text bound) (parseAttributes text count cursor.offset) (Markup.parseAttributes count cursor) := by
  induction count generalizing cursor bound with
  | zero => omega
  | succ count ih =>
    rw [parseAttributes, Markup.parseAttributes, skipBlanks_eq on, lift_some, pure_bind]
    have onVisible := on_skipBlanks on
    have shortVisible : (Markup.skipBlanks cursor).rest.length ≤ cursor.rest.length := short_skipBlanks (Nat.le_refl _)
    generalize Markup.skipBlanks cursor = visible at *
    dsimp only
    rw [startsAt_eq ">" onVisible, lift_some, pure_bind, startsAt_eq "/>" onVisible, lift_some, pure_bind]
    refine .ite (fun _ => .ok ⟨rfl, .of onVisible (by omega)⟩) fun _ => ?_
    rw [if_congr (ended_iff onVisible) rfl rfl]
    refine .ite (fun _ => .error (placed_at onVisible (by simp))) fun more => ?_
    have positive : 0 < visible.rest.length := List.length_pos_of_ne_nil fun empty => more (by rw [empty]; rfl)
    refine (follows_parseAttribute onVisible (show _ ≤ visible.rest.length - 1 + 1 by omega)).thenRead
      fun attr after onAfter shortAfter => ?_
    refine (ih onAfter (by omega) (Nat.le_refl _)).thenRead fun others last onLast shortLast => ?_
    exact .ok ⟨rfl, .of onLast (by omega)⟩

/-! Expressions in markup. -/

theorem follows_parseInterpolation (on : cursor.On text) (short : cursor.rest.length ≤ bound + 2) :
    Follows text (Reads text bound) (parseInterpolation text cursor.offset) (Markup.parseInterpolation cursor) := by
  refine (follows_eat "\x7b\x7b" on short).thenAt fun opened onOpened shortOpened => ?_
  refine .readsExpression onOpened shortOpened fun value after onAfter shortAfter => ?_
  refine .eats "\x7d\x7d" onAfter shortAfter fun last onLast shortLast => ?_
  exact .ok ⟨rfl, .of onLast shortLast⟩

theorem follows_parseParenthesized (on : cursor.On text) (short : cursor.rest.length ≤ bound) :
    Follows text (Reads text bound) (parseParenthesized text cursor.offset) (Markup.parseParenthesized cursor) := by
  refine .eats "(" on short fun opened onOpened shortOpened => ?_
  refine .readsExpression onOpened shortOpened fun value after onAfter shortAfter => ?_
  refine .eats ")" onAfter shortAfter fun last onLast shortLast => ?_
  exact .ok ⟨rfl, .of onLast shortLast⟩

theorem follows_parseLoopHead (on : cursor.On text) (short : cursor.rest.length ≤ bound) :
    Follows text (Reads text bound) (parseLoopHead text cursor.offset) (Markup.parseLoopHead cursor) := by
  refine .eats "(" on short fun opened onOpened shortOpened => ?_
  refine .readsExpression onOpened shortOpened fun item second onSecond shortSecond => ?_
  refine .eatsKeyword "of" onSecond shortSecond fun third onThird shortThird => ?_
  refine .readsExpression onThird shortThird fun items fourth onFourth shortFourth => ?_
  refine .eats ";" onFourth shortFourth fun fifth onFifth shortFifth => ?_
  refine .eatsKeyword "track" onFifth shortFifth fun sixth onSixth shortSixth => ?_
  refine .readsExpression onSixth shortSixth fun track after onAfter shortAfter => ?_
  refine .eats ")" onAfter shortAfter fun last onLast shortLast => ?_
  exact .ok ⟨rfl, .of onLast shortLast⟩

/-! Texts. -/

theorem withoutLayout_eq (raw : List Char) : withoutLayout raw = some (Markup.withoutLayout raw) := by
  have whole := Markup.trimRight_append raw
  have behind := Text.fromByte?_append (Text.trimRight raw) (Markup.spaceBehind raw)
  rw [whole] at behind
  rw [withoutLayout, behind, Markup.withoutLayout_eq]
  generalize Markup.spaceBehind raw = layout at *
  simp only [Option.bind_eq_bind, Option.bind_some]
  split
  next =>
    have start : Text.Reaches raw 0 (Text.trimRight raw ++ layout.takeWhile (· != '\n') ++ layout.dropWhile (· != '\n')) := by
      rw [List.append_assoc, List.takeWhile_append_dropWhile, whole]
      exact .start raw
    have sliced := start.slice?
    rwa [Nat.zero_add, Text.byteSize_append] at sliced
  next oneLine =>
    have all : layout.takeWhile (· != '\n') = layout := by
      rw [List.takeWhile_eq_self_iff]
      intro c member
      rw [bne_iff_ne]
      rintro rfl
      exact oneLine (List.contains_iff_mem.2 member)
    rw [all, whole]
    rfl

theorem parseText_eq (on : cursor.On text) :
    parseText text cursor.offset = some ((Markup.parseText cursor).1, (Markup.parseText cursor).2.offset) := by
  rw [parseText, skipUntil_eq _ on, Markup.parseText, textRun_eq_runBefore]
  simp only [Option.bind_eq_bind, Option.bind_some, slice?_drop on, take_runBefore, withoutLayout_eq]
  rfl

/-! Markup. -/

/-- The place that an ending remembers lies between characters. -/
def Remembers (text : List Char) (ending : Markup.Ending) : Prop :=
  ∀ cursor : Cursor, cursor.On text → Placed text (ending.missing cursor)

/-- All parsers of markup, each with the room that it needs. -/
structure Safe (text : List Char) (depth : Nat) : Prop where
  siblings {ending : Markup.Ending} {cursor : Cursor} {bound : Nat} (remembers : Remembers text ending) (on : cursor.On text)
    (room : 8 * cursor.rest.length + 7 ≤ depth) (short : cursor.rest.length ≤ bound) :
    Follows text (Reads text bound) (parseSiblings text depth ending cursor.offset) (Markup.parseSiblings depth ending cursor)
  node {cursor : Cursor} {bound : Nat} (on : cursor.On text) (filled : cursor.rest ≠ []) (noBrace : Markup.startsWith cursor "\x7d" = false)
    (room : 8 * cursor.rest.length + 6 ≤ depth) (short : cursor.rest.length ≤ bound + 1) :
    Follows text (Reads text bound) (parseNode text depth cursor.offset) (Markup.parseNode depth cursor)
  element {cursor : Cursor} {bound : Nat} (on : cursor.On text) (opens : Markup.startsWith cursor "<" = true)
    (room : 8 * cursor.rest.length + 5 ≤ depth) (short : cursor.rest.length ≤ bound + 1) :
    Follows text (Reads text bound) (parseElement text depth cursor.offset) (Markup.parseElement depth cursor)
  block {cursor : Cursor} {bound : Nat} (name : String) (on : cursor.On text) (room : 8 * cursor.rest.length + 8 ≤ depth)
    (short : cursor.rest.length ≤ bound) :
    Follows text (Reads text bound) (parseBlock text depth name cursor.offset) (Markup.parseBlock depth name cursor)
  conditional {cursor : Cursor} {bound : Nat} (on : cursor.On text) (room : 8 * cursor.rest.length + 9 ≤ depth)
    (short : cursor.rest.length ≤ bound) :
    Follows text (Reads text bound) (parseConditional text depth cursor.offset) (Markup.parseConditional depth cursor)
  elses {cursor : Cursor} {bound : Nat} (final : Bool) (on : cursor.On text) (room : 8 * cursor.rest.length + 1 ≤ depth)
    (short : cursor.rest.length ≤ bound) :
    Follows text (Reads text bound) (parseElses text depth final cursor.offset) (Markup.parseElses depth final cursor)
  loop {cursor : Cursor} {bound : Nat} (on : cursor.On text) (room : 8 * cursor.rest.length + 9 ≤ depth)
    (short : cursor.rest.length ≤ bound) :
    Follows text (Reads text bound) (parseLoop text depth cursor.offset) (Markup.parseLoop depth cursor)

variable {depth : Nat}

theorem Safe.siblings_succ (safe : Safe text depth) {ending : Markup.Ending} (remembers : Remembers text ending) (on : cursor.On text)
    (room : 8 * cursor.rest.length + 7 ≤ depth + 1) (short : cursor.rest.length ≤ bound) :
    Follows text (Reads text bound) (parseSiblings text (depth + 1) ending cursor.offset)
      (Markup.parseSiblings (depth + 1) ending cursor) := by
  rw [parseSiblings, Markup.parseSiblings, skipBlanks_eq on, lift_some, pure_bind]
  have onVisible := on_skipBlanks on
  have shortVisible : (Markup.skipBlanks cursor).rest.length ≤ cursor.rest.length := short_skipBlanks (Nat.le_refl _)
  generalize Markup.skipBlanks cursor = visible at *
  dsimp only
  rw [isAt_eq ending onVisible, lift_some, pure_bind]
  refine .ite (fun _ => .ok ⟨rfl, .of onVisible (by omega)⟩) fun _ => ?_
  rw [if_congr (ended_iff onVisible) rfl rfl]
  refine .ite (fun _ => ?_) fun more => ?_
  · have same : missing ending visible.offset = ending.missing visible := by cases ending <;> rfl
    rw [same]
    exact .error (remembers visible onVisible)
  rw [startsAt_eq "\x7d" onVisible, lift_some, pure_bind]
  refine .ite (fun _ => .error (placed_at onVisible (by simp))) fun noBrace => ?_
  have filled : visible.rest ≠ [] := fun empty => more (by rw [empty]; rfl)
  have positive := List.length_pos_of_ne_nil filled
  refine (safe.node onVisible filled (Bool.eq_false_iff.2 noBrace) (by omega) (show _ ≤ visible.rest.length - 1 + 1 by omega)).thenRead
    fun node? after onAfter shortAfter => ?_
  refine (safe.siblings remembers onAfter (by omega) (show _ ≤ bound by omega)).thenRead fun others last onLast shortLast => ?_
  exact .ok ⟨rfl, .of onLast shortLast⟩

theorem Safe.node_succ (safe : Safe text depth) (on : cursor.On text) (filled : cursor.rest ≠ [])
    (noBrace : Markup.startsWith cursor "\x7d" = false) (room : 8 * cursor.rest.length + 6 ≤ depth + 1)
    (short : cursor.rest.length ≤ bound + 1) :
    Follows text (Reads text bound) (parseNode text (depth + 1) cursor.offset) (Markup.parseNode (depth + 1) cursor) := by
  rw [parseNode, Markup.parseNode, startsAt_eq "<" on, lift_some, pure_bind]
  refine .ite (fun opens => ?_) fun noTag => ?_
  · refine (safe.element on opens (by omega) short).thenRead fun node after onAfter shortAfter => ?_
    exact .ok ⟨rfl, .of onAfter shortAfter⟩
  rw [startsAt_eq "\x7b\x7b" on, lift_some, pure_bind]
  refine .ite (fun opens => ?_) fun noBraces => ?_
  · refine (follows_parseInterpolation on (show _ ≤ bound + 2 by omega)).thenRead fun value after onAfter shortAfter => ?_
    exact .ok ⟨rfl, .of onAfter shortAfter⟩
  rw [startsAt_eq "@if" on, lift_some, pure_bind]
  refine .ite (fun opens => ?_) fun noIf => ?_
  · have length := (offset_drop_of_startsWith opens).2
    rw [show "@if".length = 3 from rfl] at length
    rw [eat_eq on opens, pure_bind]
    refine (safe.conditional (on.drop 3) (by omega) (Nat.le_refl _)).thenRead fun block after onAfter shortAfter => ?_
    exact .ok ⟨rfl, .of onAfter (by omega)⟩
  rw [startsAt_eq "@for" on, lift_some, pure_bind]
  refine .ite (fun opens => ?_) fun noFor => ?_
  · have length := (offset_drop_of_startsWith opens).2
    rw [show "@for".length = 4 from rfl] at length
    rw [eat_eq on opens, pure_bind]
    refine (safe.loop (on.drop 4) (by omega) (Nat.le_refl _)).thenRead fun block after onAfter shortAfter => ?_
    exact .ok ⟨rfl, .of onAfter (by omega)⟩
  rw [parseText_eq on, lift_some]
  -- A place where nothing else starts is not the end of a text, so that the text takes up a character.
  have noEnd : Markup.endsText cursor.rest = false := by
    rw [Markup.startsWith] at noTag noBraces noIf noFor noBrace
    simp [Markup.endsText, noTag, noBraces, noIf, noFor, noBrace]
  have positive : 0 < (Markup.textRun cursor.rest).length := by
    cases isRest : cursor.rest with
    | nil => exact absurd isRest filled
    | cons c rest =>
      rw [isRest] at noEnd
      rw [Markup.textRun, if_neg (Bool.eq_false_iff.1 noEnd), List.length_cons]
      exact Nat.succ_pos _
  refine .ok ⟨rfl, .of (on.drop _) ?_⟩
  show (cursor.rest.drop (Markup.textRun cursor.rest).length).length ≤ bound
  rw [List.length_drop]
  omega

theorem Safe.element_succ (safe : Safe text depth) (on : cursor.On text) (opens : Markup.startsWith cursor "<" = true)
    (room : 8 * cursor.rest.length + 5 ≤ depth + 1) (short : cursor.rest.length ≤ bound + 1) :
    Follows text (Reads text bound) (parseElement text (depth + 1) cursor.offset) (Markup.parseElement (depth + 1) cursor) := by
  have length := (offset_drop_of_startsWith opens).2
  rw [show "<".length = 1 from rfl] at length
  rw [parseElement, Markup.parseElement, eat_eq on opens, pure_bind, show cursor.drop "<".length = cursor.drop 1 from rfl]
  have onInner : (cursor.drop 1).On text := on.drop 1
  change cursor.rest.length = (cursor.drop 1).rest.length + 1 at length
  generalize cursor.drop 1 = inner at *
  dsimp only
  rw [startsAt_eq "/" onInner, lift_some, pure_bind]
  refine .ite (fun closes => ?_) fun _ => ?_
  · have behind : Text.fromByte? (inner.offset + 1) text = some (inner.drop 1).rest := by
      rw [show inner.offset + 1 = (inner.drop 1).offset from (offset_drop_of_startsWith closes).1.symm]
      exact (onInner.drop 1).fromByte?
    rw [behind, lift_some, pure_bind]
    exact .error (placed_at on (by simp))
  rw [skipUntil_eq _ onInner, lift_some, pure_bind, slice?_drop onInner, lift_some, pure_bind, take_runBefore, ← takeWhile_eq_runBefore]
  have onName := onInner.drop (inner.rest.takeWhile Text.isTagPart).length
  have shortName := length_drop_le inner (inner.rest.takeWhile Text.isTagPart).length
  generalize inner.rest.takeWhile Text.isTagPart = name at *
  refine .ite (fun _ => .error (placed_at onInner (by simp))) fun _ => ?_
  rw [onInner.fromByte?, lift_some, pure_bind]
  refine (follows_parseAttributes _ onName (Nat.lt_succ_of_le shortName) shortName).thenRead
    fun attributes tagged onTagged shortTagged => ?_
  dsimp only
  rw [startsAt_eq "/>" onTagged, lift_some, pure_bind]
  refine .ite (fun empty => ?_) fun _ => ?_
  · refine .ok ⟨rfl, ⟨(offset_drop_of_startsWith empty).1.symm, onTagged.drop 2, ?_⟩⟩
    exact Nat.le_trans (length_drop_le tagged 2) (by omega)
  refine (follows_eat ">" onTagged (Nat.le_add_right_of_le shortTagged)).thenAt fun opened onOpened shortOpened => ?_
  have remembers : Remembers text (.tag (.ofList name) cursor.offset) := fun _ _ => placed_at on (by simp)
  refine (safe.siblings remembers onOpened (by omega) shortOpened).thenRead fun children ended onEnded shortEnded => ?_
  refine (follows_eat _ onEnded (show _ ≤ bound + _ by omega)).thenAt fun last onLast shortLast => ?_
  exact .ok ⟨rfl, .of onLast shortLast⟩

theorem Safe.block_succ (safe : Safe text depth) (name : String) (on : cursor.On text) (room : 8 * cursor.rest.length + 8 ≤ depth + 1)
    (short : cursor.rest.length ≤ bound) :
    Follows text (Reads text bound) (parseBlock text (depth + 1) name cursor.offset) (Markup.parseBlock (depth + 1) name cursor) := by
  rw [parseBlock, Markup.parseBlock, skipBlanks_eq on, lift_some, pure_bind]
  have onVisible := on_skipBlanks on
  have shortVisible : (Markup.skipBlanks cursor).rest.length ≤ cursor.rest.length := short_skipBlanks (Nat.le_refl _)
  generalize Markup.skipBlanks cursor = visible at *
  have remembers : Remembers text (.block name visible.offset) := fun _ _ => placed_at onVisible (by simp)
  refine (follows_eat "\x7b" onVisible (Nat.le_add_right_of_le shortVisible)).thenAt fun opened onOpened shortOpened => ?_
  refine (safe.siblings remembers onOpened (by omega) (Nat.le_refl _)).thenRead fun body ended onEnded shortEnded => ?_
  refine (follows_eat "\x7d" onEnded (show _ ≤ bound + _ by omega)).thenAt fun last onLast shortLast => ?_
  exact .ok ⟨rfl, .of onLast shortLast⟩

theorem skipBlanks_skipBlanks (cursor : Cursor) : Markup.skipBlanks (Markup.skipBlanks cursor) = Markup.skipBlanks cursor := by
  have visible : (Markup.skipBlanks cursor).rest.takeWhile Text.isBlank = [] := by
    show (cursor.rest.drop _).takeWhile Text.isBlank = []
    rw [drop_takeWhile]
    cases shape : cursor.rest.dropWhile Text.isBlank with
    | nil => rfl
    | cons c rest =>
      have noBlank := Markup.not_of_head?_dropWhile (p := Text.isBlank) cursor.rest
        (show c ∈ (cursor.rest.dropWhile Text.isBlank).head? by rw [shape]; rfl)
      rw [List.takeWhile_cons_of_neg (by rw [noBlank]; exact Bool.false_ne_true)]
  rw [Markup.skipBlanks, visible]
  rfl

theorem parseBlock_skipBlanks (positive : 0 < depth) {name : String} :
    Markup.parseBlock depth name (Markup.skipBlanks cursor) = Markup.parseBlock depth name cursor := by
  obtain ⟨depth, rfl⟩ := Nat.exists_eq_add_of_le' positive
  rw [Markup.parseBlock, Markup.parseBlock, skipBlanks_skipBlanks]

theorem Safe.conditional_succ (safe : Safe text depth) (on : cursor.On text) (room : 8 * cursor.rest.length + 9 ≤ depth + 1)
    (short : cursor.rest.length ≤ bound) :
    Follows text (Reads text bound) (parseConditional text (depth + 1) cursor.offset) (Markup.parseConditional (depth + 1) cursor) := by
  rw [parseConditional, Markup.parseConditional]
  refine (follows_parseParenthesized on (Nat.le_refl _)).thenRead fun test tested onTested shortTested => ?_
  refine (safe.block "@if" onTested (by omega) shortTested).thenRead fun body ended onEnded shortEnded => ?_
  refine (safe.elses false onEnded (by omega) (show _ ≤ bound by omega)).thenRead fun branches last onLast shortLast => ?_
  exact .ok ⟨rfl, .of onLast shortLast⟩

theorem Safe.elses_succ (safe : Safe text depth) (final : Bool) (on : cursor.On text) (room : 8 * cursor.rest.length + 1 ≤ depth + 1)
    (short : cursor.rest.length ≤ bound) :
    Follows text (Reads text bound) (parseElses text (depth + 1) final cursor.offset) (Markup.parseElses (depth + 1) final cursor) := by
  have onVisible := on_skipBlanks on
  have shortVisible : (Markup.skipBlanks cursor).rest.length ≤ cursor.rest.length := short_skipBlanks (Nat.le_refl _)
  rw [parseElses, Markup.parseElses, skipBlanks_eq on, lift_some, pure_bind, afterKeyword?_eq "@else" onVisible, lift_some, pure_bind]
  cases found : Markup.afterKeyword? "@else" (Markup.skipBlanks cursor) with
  | none => exact .ok ⟨rfl, .of on short⟩
  | some after =>
    obtain ⟨onAfter, length⟩ := on_afterKeyword? onVisible found
    rw [show "@else".length = 5 from rfl] at length
    dsimp only [Option.map_some]
    refine .ite (fun _ => .error (placed_at on (by simp))) fun _ => ?_
    have onNext := on_skipBlanks onAfter
    have shortNext : (Markup.skipBlanks after).rest.length ≤ after.rest.length := short_skipBlanks (Nat.le_refl _)
    rw [skipBlanks_eq onAfter, lift_some, pure_bind, afterKeyword?_eq "if" onNext, lift_some, pure_bind]
    cases tests : Markup.afterKeyword? "if" (Markup.skipBlanks after) with
    | some opened =>
      obtain ⟨onOpened, shorter⟩ := on_afterKeyword? onNext tests
      dsimp only [Option.map_some]
      refine (follows_parseParenthesized onOpened (show _ ≤ after.rest.length by omega)).thenRead fun test tested onTested shortTested => ?_
      refine (safe.block "@else if" onTested (by omega) shortTested).thenRead fun body ended onEnded shortEnded => ?_
      refine (safe.elses false onEnded (by omega) (show _ ≤ bound by omega)).thenRead fun branches last onLast shortLast => ?_
      exact .ok ⟨rfl, .of onLast shortLast⟩
    | none =>
      rw [Option.map_none]
      dsimp only
      rw [pure_bind, ← parseBlock_skipBlanks (show 0 < depth by omega)]
      refine (safe.block "@else" onNext (by omega) shortNext).thenRead fun otherwise ended onEnded shortEnded => ?_
      refine (safe.elses true onEnded (by omega) (show _ ≤ bound by omega)).thenRead fun branches last onLast shortLast => ?_
      exact .ok ⟨rfl, .of onLast shortLast⟩

theorem Safe.loop_succ (safe : Safe text depth) (on : cursor.On text) (room : 8 * cursor.rest.length + 9 ≤ depth + 1)
    (short : cursor.rest.length ≤ bound) :
    Follows text (Reads text bound) (parseLoop text (depth + 1) cursor.offset) (Markup.parseLoop (depth + 1) cursor) := by
  rw [parseLoop, Markup.parseLoop]
  refine (follows_parseLoopHead on (Nat.le_refl _)).thenRead fun head headed onHeaded shortHeaded => ?_
  refine (safe.block "@for" onHeaded (by omega) shortHeaded).thenRead fun body ended onEnded shortEnded => ?_
  dsimp only
  have onVisible := on_skipBlanks onEnded
  have shortVisible : (Markup.skipBlanks ended).rest.length ≤ ended.rest.length := short_skipBlanks (Nat.le_refl _)
  rw [skipBlanks_eq onEnded, lift_some, pure_bind, afterKeyword?_eq "@empty" onVisible, lift_some, pure_bind]
  cases found : Markup.afterKeyword? "@empty" (Markup.skipBlanks ended) with
  | none => exact .ok ⟨rfl, .of onEnded (by omega)⟩
  | some after =>
    obtain ⟨onAfter, length⟩ := on_afterKeyword? onVisible found
    rw [show "@empty".length = 6 from rfl] at length
    refine (safe.block "@empty" onAfter (by omega) (show _ ≤ bound by omega)).thenRead fun empty last onLast shortLast => ?_
    exact .ok ⟨rfl, .of onLast shortLast⟩

theorem safe (text : List Char) (depth : Nat) : Safe text depth := by
  induction depth with
  | zero => constructor <;> intros <;> omega
  | succ depth ih =>
    exact {
      siblings := ih.siblings_succ
      node := ih.node_succ
      element := ih.element_succ
      block := ih.block_succ
      conditional := ih.conditional_succ
      elses := ih.elses_succ
      loop := ih.loop_succ }

/-! Whole texts, and the places of their problems. -/

theorem Follows.run_eq {read : Parsing α} {parsed : Except Fault α} (follows : Follows text (· = ·) read parsed) :
    read.run = some parsed := by
  cases follows with
  | ok same => rw [same]; rfl
  | error placed => rfl

theorem Follows.run_offset {read : Parsing (α × Nat)} {parsed : Except Fault (α × Cursor)}
    (follows : Follows text (Reads text bound) read parsed) :
    read.run = some (parsed.map fun value => (value.1, value.2.offset)) := by
  cases follows with
  | @ok here there same =>
    have whole : here = (there.1, there.2.offset) := Prod.ext same.1 same.2.same
    rw [whole]
    rfl
  | error placed => rfl

theorem Follows.placed {read : Parsing α} {parsed : Except Fault β} (follows : Follows text alike read parsed) {fault : Fault}
    (faulty : parsed = .error fault) : Placed text fault := by
  cases follows with
  | ok same => cases faulty
  | error placed =>
    cases faulty
    exact placed

theorem follows_parseWhole (content : String) :
    Follows content.toList (· = ·) (parseWhole content.toList) (Markup.parseWhole content) := by
  have on : (Cursor.start content).On content.toList := Text.Reaches.start _
  have remembers : Remembers content.toList .text := fun _ onEnd => placed_at onEnd (by simp)
  rw [parseWhole, Markup.parseWhole]
  refine ((safe content.toList _).siblings remembers on ?_ (Nat.le_refl _)).thenRead fun nodes after _ _ => .ok rfl
  show 8 * content.toList.length + 7 ≤ 8 * (content.toList.length + 1)
  omega

/-- The lines and the column that are counted on the way. -/
theorem foldl_advance (chars : List Char) :
    chars.foldl Position.advance ⟨0, 0, 0⟩ = ⟨Text.byteSize chars, chars.count '\n', (chars.reverse.takeWhile (· != '\n')).length⟩ := by
  induction chars using List.reverseRecOn with
  | nil => rfl
  | append_singleton chars c ih =>
    rw [List.foldl_append, ih, List.foldl_cons, List.foldl_nil, Position.advance, Text.byteSize_append, List.count_append,
      List.reverse_append]
    by_cases feed : c = '\n'
    · subst feed
      simp [Text.byteSize]
    · simp [feed, Text.byteSize]

/-- A diagnostic between the characters before and after it. It counts the line feeds before it and
the characters since the last of them, and the slices that show where it is are slices of the source. -/
structure Sits (diagnostic : Diagnostic) (before after : List Char) : Prop where
  split : diagnostic.source.content.toList = before ++ after
  offset : diagnostic.offset = Text.byteSize before
  inside : diagnostic.offset ≤ diagnostic.source.content.utf8ByteSize
  line : diagnostic.position.line = before.count '\n'
  column : diagnostic.position.column = (before.reverse.takeWhile (· != '\n')).length
  located : locate diagnostic.source.content.toList diagnostic.offset = some diagnostic.position
  shown : excerpt diagnostic.source.content.toList diagnostic.offset = some (diagnostic.source.excerpt diagnostic.offset)

theorem sits_of_placed {source : Source} {fault : Fault} (placed : Placed source.content.toList fault) :
    ∃ before after, Sits (fault.diagnostic source) before after := by
  obtain ⟨after, before, split, offset⟩ : ∃ rest, Text.Reaches source.content.toList (fault.diagnostic source).offset rest := by
    rw [Fault.diagnostic]
    cases place : fault.offset? with
    | some offset => exact placed.2 offset place
    | none =>
      refine ⟨[], ?_⟩
      rw [Option.getD_none, ← Text.byteSize_toList]
      exact .stop _
  have inside : (fault.diagnostic source).offset ≤ source.content.utf8ByteSize := by
    rw [← offset, ← Text.byteSize_toList, split, Text.byteSize_append]
    exact Nat.le_add_right ..
  have cut : source.split (fault.diagnostic source).offset = (before, after) := by
    rw [Source.split, ← offset, split]
    exact Text.splitAtByte_append before after
  have position : (fault.diagnostic source).position = before.foldl Position.advance ⟨0, 0, 0⟩ :=
    congrArg (fun parts : List Char × List Char => parts.1.foldl Position.advance ⟨0, 0, 0⟩) cut
  have least : min (fault.diagnostic source).offset (Text.byteSize source.content.toList) = Text.byteSize before := by
    rw [Text.byteSize_toList, Nat.min_eq_left inside, offset]
  have front : Text.slice? 0 (Text.byteSize before) source.content.toList = some before := by
    have whole : Text.Reaches source.content.toList 0 (before ++ after) := split ▸ Text.Reaches.start _
    have sliced := whole.slice?
    rwa [Nat.zero_add] at sliced
  have behind : Text.fromByte? (Text.byteSize before) source.content.toList = some after := by rw [split, Text.fromByte?_append]
  refine ⟨before, after, split, offset.symm, inside, ?_, ?_, ?_, ?_⟩
  · rw [position, foldl_advance]
  · rw [position, foldl_advance]
  · rw [locate, show (fault.diagnostic source).source = source from rfl, least, front, position]
    rfl
  · rw [excerpt, show (fault.diagnostic source).source = source from rfl, least, front, behind, Source.excerpt, cut]
    rfl

/-- Parsing is total, and its problems lie within the text. On every source the parser of markup that
takes slices reads what is read from the characters, and so does the parser of an expression from
every place between characters. A fault is never the depth, and its diagnostic lies in the text. -/
theorem parsing_safe (source : Source) :
    ((parseWhole source.content.toList).run = some (Markup.parseWhole source.content) ∧
      ∀ fault, Markup.parseWhole source.content = .error fault →
        fault.problem ≠ .depth ∧ ∃ before after, Sits (fault.diagnostic source) before after) ∧
    ∀ offset rest, Text.Reaches source.content.toList offset rest →
      (parseExpression source.content.toList offset).run =
        some ((Expression.parseAt ⟨offset, rest⟩).map fun value => (value.1, value.2.offset)) ∧
      ∀ fault, Expression.parseAt ⟨offset, rest⟩ = .error fault →
        fault.problem ≠ .depth ∧ ∃ before after, Sits (fault.diagnostic source) before after := by
  refine ⟨⟨(follows_parseWhole source.content).run_eq, fun fault faulty => ?_⟩, fun offset rest reaches => ?_⟩
  · have placed := (follows_parseWhole source.content).placed faulty
    exact ⟨placed.1, sits_of_placed placed⟩
  · have follows := follows_parseExpression (show Cursor.On source.content.toList ⟨offset, rest⟩ from reaches) (Nat.le_refl _)
    refine ⟨follows.run_offset, fun fault faulty => ?_⟩
    have placed := follows.placed faulty
    exact ⟨placed.1, sits_of_placed placed⟩

/-- Behind a character of two bytes, in a tag that does not end. -/
theorem parsing_safe_accent :
    (Markup.parseWhole "é\n<p" = .error ⟨some 5, .unterminatedTag⟩ ∧
      ∃ before after, Sits (Fault.diagnostic ⟨some 5, .unterminatedTag⟩ ⟨"é\n<p", "page"⟩) before after) ∧
    Text.Reaches "é\n<p".toList 2 "\n<p".toList ∧
      Expression.parseAt ⟨2, "\n<p".toList⟩ = .error ⟨some 3, .unexpectedToken "<"⟩ ∧
      ∃ before after, Sits (Fault.diagnostic ⟨some 3, .unexpectedToken "<"⟩ ⟨"é\n<p", "page"⟩) before after := by
  have reaches : Text.Reaches "é\n<p".toList 2 "\n<p".toList := ⟨['é'], rfl, rfl⟩
  have unexpected : Expression.parseAt ⟨2, "\n<p".toList⟩ = .error ⟨some 3, .unexpectedToken "<"⟩ := by with_unfolding_all rfl
  obtain ⟨⟨_, whole⟩, parts⟩ := parsing_safe ⟨"é\n<p", "page"⟩
  obtain ⟨_, part⟩ := parts 2 _ reaches
  exact ⟨⟨rfl, (whole _ rfl).2⟩, reaches, unexpected, (part _ unexpected).2⟩

end

end ReactiveMarkup.Bytewise
