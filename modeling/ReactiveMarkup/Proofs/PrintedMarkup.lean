import Mathlib.Data.List.TakeWhile
import ReactiveMarkup.Markup.Parser
import ReactiveMarkup.Markup.Printer
import ReactiveMarkup.Proofs.PrintedExpressions

/-! Markup that was printed is read back as it was, if no two of its parts run together when they
are written back to back. -/

namespace ReactiveMarkup.Markup

open ReactiveMarkup.Expression (Formed Numeric everywhere clearBody Behind Apart Ends)

/-! Markup as a text can spell it. -/

/-- Whether a text starts with a word that no identifier character continues. -/
def startsWithWord (word : String) (chars : List Char) : Bool :=
  Text.startsWith chars word && !((chars.drop word.length).head?.any Text.isIdentifierPart)

/-- A text that is read whole: nothing in it ends a text, and layout is cut off neither end. -/
structure Plain (value : String) : Prop where
  filled : (Text.trim value.toList).isEmpty = false
  visible : ∀ c ∈ value.toList.head?, Text.isBlank c = false
  unbroken : ∀ behind ∈ value.toList.tails, endsText behind = false
  level : '\n' ∉ value.toList.reverse.takeWhile Text.isSpace

structure TagName (name : String) : Prop where
  nonempty : name.toList ≠ []
  parts : ∀ c ∈ name.toList, Text.isTagPart c = true

structure AttributeName (name : String) : Prop where
  nonempty : name.toList ≠ []
  parts : ∀ c ∈ name.toList, c ≠ '=' ∧ c ≠ '>' ∧ Text.isBlank c = false

instance (value : String) : Decidable (Plain value) :=
  decidable_of_iff ((Text.trim value.toList).isEmpty = false ∧ value.toList.head?.all (fun c => !Text.isBlank c) = true ∧
      (∀ behind ∈ value.toList.tails, endsText behind = false) ∧ '\n' ∉ value.toList.reverse.takeWhile Text.isSpace)
    ⟨fun ⟨filled, visible, unbroken, level⟩ => ⟨filled, by simpa [Option.all_eq_true] using visible, unbroken, level⟩,
      fun plain => ⟨plain.filled, by simpa [Option.all_eq_true] using plain.visible, plain.unbroken, plain.level⟩⟩

instance (name : String) : Decidable (TagName name) :=
  decidable_of_iff (name.toList ≠ [] ∧ name.toList.all Text.isTagPart = true)
    ⟨fun ⟨nonempty, parts⟩ => ⟨nonempty, List.all_eq_true.1 parts⟩, fun named => ⟨named.nonempty, List.all_eq_true.2 named.parts⟩⟩

instance (name : String) : Decidable (AttributeName name) :=
  decidable_of_iff (name.toList ≠ [] ∧ name.toList.all (fun c => c != '=' && c != '>' && !Text.isBlank c) = true)
    ⟨fun ⟨nonempty, parts⟩ => ⟨nonempty, by simpa [and_assoc] using parts⟩,
      fun named => ⟨named.nonempty, by simpa [and_assoc] using named.parts⟩⟩

/-- Attributes as they can be written. The name of a literal has no brackets of a binding. -/
inductive Written (host : Expression → Prop) : Attribute → Prop where
  | literal {name value : String} (named : AttributeName name) (noProperty : boundName? '[' ']' name.toList = none)
      (noEvent : boundName? '(' ')' name.toList = none) (noQuote : '"' ∉ value.toList) : Written host (.literal name value)
  | flag {name : String} (named : AttributeName name) : Written host (.flag name)
  | property {name : String} {value : Expression} (named : AttributeName name) (formed : host value) :
      Written host (.property name value)
  | event {name : String} {value : Expression} (named : AttributeName name) (formed : host value) :
      Written host (.event name value)

/-- Siblings as a text can spell them, with expressions of some kind. Only those that are `tight`
can be written back to back: a flag that ends in a slash is not the last attribute, no text ends
in a brace in front of another, and no text looks like the branch that a loop lacks. -/
inductive Laid (host : Expression → Prop) (tight : Prop) : List Markup → Prop where
  | nil : Laid host tight []
  | element {name : String} {attributes : List Attribute} {children rest : List Markup} (named : TagName name)
      (written : ∀ attr ∈ attributes, Written host attr)
      (closed : tight → ∀ flag, attributes.getLast? = some (.flag flag) → flag.toList.getLast? ≠ some '/')
      (laid : Laid host tight children) (laidRest : Laid host tight rest) :
      Laid host tight (.element name attributes children :: rest)
  | text {value : String} {rest : List Markup} (plain : Plain value) (apart : ∀ other more, rest ≠ .text other :: more)
      (noBrace : tight → value.toList.getLast? = some '\x7b' → ∀ e more, rest ≠ .expression e :: more)
      (laidRest : Laid host tight rest) : Laid host tight (.text value :: rest)
  | expression {value : Expression} {rest : List Markup} (formed : host value) (laidRest : Laid host tight rest) :
      Laid host tight (.expression value :: rest)
  | conditional {test : Expression} {body otherwise rest : List Markup} {others : List (Branch Markup)} (formed : host test)
      (formedOthers : ∀ branch ∈ others, host branch.test) (laid : Laid host tight body)
      (laidOthers : ∀ branch ∈ others, Laid host tight branch.body) (laidOtherwise : Laid host tight otherwise)
      (noElse : ∀ value more, rest = .text value :: more → startsWithWord "@else" value.toList = false)
      (laidRest : Laid host tight rest) : Laid host tight (.conditional test body others otherwise :: rest)
  | loop {item items track : Expression} {body empty rest : List Markup} (formed : host item) (formedItems : host items)
      (formedTrack : host track) (laid : Laid host tight body) (laidEmpty : Laid host tight empty)
      (noEmpty : tight → empty = [] → ∀ value more, rest = .text value :: more → startsWithWord "@empty" value.toList = false)
      (laidRest : Laid host tight rest) : Laid host tight (.loop item items track body empty :: rest)

/-- An expression that is read back as it was printed. -/
def Reprinted (e : Expression) : Prop := Formed Numeric e ∧ everywhere clearBody e = true

/-! Cursors. -/

theorem bind_of_ok {α β : Type} {first : Parsed α} {value : α} {next : α → Parsed β} {result : Parsed β} (same : first = .ok value)
    (done : next value = result) : (first >>= next) = result := by
  rw [same]
  exact done

variable {offset : Nat} {chars rest : List Char}

theorem drop_append (offset : Nat) (chars rest : List Char) :
    (⟨offset, chars ++ rest⟩ : Cursor).drop chars.length = ⟨offset + Text.byteSize chars, rest⟩ := by
  simp [Cursor.drop]

theorem drop_one (offset : Nat) (c : Char) (rest : List Char) :
    (⟨offset, c :: rest⟩ : Cursor).drop 1 = ⟨offset + c.utf8Size, rest⟩ := by
  simp [Cursor.drop, Text.byteSize]

theorem startsWith_append (text : String) : startsWith ⟨offset, text.toList ++ rest⟩ text = true := by
  simp [startsWith, Text.startsWith]

theorem startsWith_of_ne {front : String} {c d : Char} {more : List Char} (spelled : front.toList = d :: more) (other : c ≠ d)
    (tail : List Char) : Text.startsWith (c :: tail) front = false := by
  rw [Text.startsWith, spelled, List.isPrefixOf, beq_false_of_ne other.symm, Bool.false_and]

theorem eat_append (text : String) (offset : Nat) (rest : List Char) :
    ∃ stop, eat text ⟨offset, text.toList ++ rest⟩ = .ok ⟨stop, rest⟩ := by
  rw [eat, if_pos (startsWith_append text), ← String.length_toList, drop_append]
  exact ⟨_, rfl⟩

/-- The first character, if there is one, is not blank. -/
def Visible (rest : List Char) : Prop := ∀ c tail, rest = c :: tail → Text.isBlank c = false

theorem skipBlanks_visible (visible : Visible rest) (offset : Nat) : skipBlanks ⟨offset, rest⟩ = ⟨offset, rest⟩ := by
  have none : rest.takeWhile Text.isBlank = [] := by
    cases rest with
    | nil => rfl
    | cons c tail => exact List.takeWhile_cons_of_neg (by simp [visible c tail rfl])
  simp [skipBlanks, none, Cursor.drop, Text.byteSize]

theorem skipBlanks_space (visible : Visible rest) (offset : Nat) : ∃ stop, skipBlanks ⟨offset, ' ' :: rest⟩ = ⟨stop, rest⟩ := by
  have one : (' ' :: rest).takeWhile Text.isBlank = [' '] := by
    cases rest with
    | nil => rfl
    | cons c tail =>
      rw [List.takeWhile_cons_of_pos (by decide), List.takeWhile_cons_of_neg (by simp [visible c tail rfl])]
  rw [skipBlanks, one]
  exact ⟨_, drop_one offset ' ' rest⟩

theorem visible_cons {c : Char} (visible : Text.isBlank c = false) (tail : List Char) : Visible (c :: tail) := by
  rintro _ _ ⟨rfl, rfl⟩
  exact visible

theorem eat_skipping {text : String} (spelled : text.toList ++ rest = chars) (visible : Visible chars) (offset : Nat) :
    ∃ stop, eat text (skipBlanks ⟨offset, chars⟩) = .ok ⟨stop, rest⟩ := by
  rw [skipBlanks_visible visible, ← spelled]
  exact eat_append text offset rest

theorem eat_spaced {text : String} (spelled : text.toList ++ rest = chars) (visible : Visible chars) (offset : Nat) :
    ∃ stop, eat text (skipBlanks ⟨offset, ' ' :: chars⟩) = .ok ⟨stop, rest⟩ := by
  obtain ⟨begun, skipped⟩ := skipBlanks_space visible offset
  rw [skipped, ← spelled]
  exact eat_append text begun rest

/-! What comes behind an expression. -/

theorem behind_visible {c : Char} {tail : List Char} (visible : Text.isBlank c = false) (noPart : Text.isIdentifierPart c = false)
    (noPoint : c ≠ '.') (plain : Expression.binding (Expression.scanLexeme c tail).1 = 0) : Behind (c :: tail) := by
  refine ⟨Expression.apart_cons noPart noPoint, fun offset token more same => ?_⟩
  obtain ⟨_, _, scanned⟩ := Expression.tokens_visible visible offset tail
  rw [scanned] at same
  cases same
  exact Nat.le_of_eq plain

theorem behind_mark {c : Char} (visible : Text.isBlank c = false) (noPart : Text.isIdentifierPart c = false)
    (noPoint : (c == '.') = false) (isMark : Expression.isMark c = true) (plain : Expression.binding (.mark c) = 0) (tail : List Char) :
    Behind (c :: tail) := by
  have noStart : ¬ Text.isIdentifierStart c = true := fun start => by simp [Text.isIdentifierPart, start] at noPart
  have noDigit : c.isDigit = false := by
    simp only [Text.isIdentifierPart, Bool.or_eq_false_iff] at noPart
    exact noPart.2
  refine behind_visible visible noPart (ne_of_beq_false noPoint) ?_
  rw [Expression.scanLexeme, if_neg noStart, if_neg (by simp [Expression.startsNumber, noDigit, noPoint]), if_pos isMark]
  exact plain

theorem behind_close (tail : List Char) : Behind (')' :: tail) :=
  behind_mark (by decide) (by decide) (by decide) (by decide) rfl tail

theorem behind_semicolon (tail : List Char) : Behind (';' :: tail) :=
  behind_mark (by decide) (by decide) (by decide) (by decide) rfl tail

theorem behind_brace (tail : List Char) : Behind ('\x7d' :: tail) :=
  behind_mark (by decide) (by decide) (by decide) (by decide) rfl tail

theorem behind_quote (tail : List Char) : Behind ('"' :: tail) := by
  refine behind_visible (by decide) (by decide) (by decide) ?_
  rw [Expression.scanLexeme, if_neg (by decide), if_neg (by simp [Expression.startsNumber]), if_neg (by decide), if_pos (by decide)]
  dsimp only
  split <;> rfl

/-- A blank keeps any word apart. -/
theorem behind_word {c : Char} (start : Text.isIdentifierStart c = true) (tail : List Char) : Behind (' ' :: c :: tail) := by
  refine ⟨Expression.apart_cons (by decide) (by decide), fun offset token more same => ?_⟩
  have visible := Text.not_isBlank_of_isIdentifierPart (Text.isIdentifierPart_iff.2 (.inl start))
  obtain ⟨_, _, scanned⟩ := Expression.tokens_visible visible (offset + (' ').utf8Size) tail
  rw [Expression.tokens, if_pos (by decide), scanned] at same
  cases same
  simp only [Expression.scanLexeme, if_pos start, Expression.word]
  split <;> exact Nat.le_refl 0

theorem behind_spacedBrace (tail : List Char) : Behind (' ' :: '\x7d' :: tail) := by
  refine ⟨Expression.apart_cons (by decide) (by decide), fun offset token more same => ?_⟩
  rw [Expression.tokens, if_pos (by decide)] at same
  exact (behind_brace tail).2 _ token more same

/-- A printed expression is read where it stands. -/
theorem parseAt_reprinted {e : Expression} (reprinted : Reprinted e) (behind : Behind rest) (offset : Nat) :
    ∃ stop, Expression.parseAt ⟨offset, e.print.toList ++ rest⟩ = .ok (e, ⟨stop, rest⟩) := by
  have parsed := Expression.parseAt_numeric reprinted.1 behind offset
  rw [Expression.reread, if_pos reprinted.2] at parsed
  exact ⟨_, Expression.ok_of_toOption parsed⟩

theorem visible_print {e : Expression} (formed : Formed Numeric e) (rest : List Char) : Visible (e.print.toList ++ rest) := by
  obtain ⟨c, tail, same, visible, _⟩ := (Expression.spells_print formed).start
  rw [same, List.cons_append]
  exact visible_cons visible _

theorem parseAt_skipping {e : Expression} (reprinted : Reprinted e) (behind : Behind rest) (offset : Nat) :
    ∃ stop, Expression.parseAt (skipBlanks ⟨offset, e.print.toList ++ rest⟩) = .ok (e, ⟨stop, rest⟩) := by
  rw [skipBlanks_visible (visible_print reprinted.1 rest)]
  exact parseAt_reprinted reprinted behind offset

theorem parseAt_spaced {e : Expression} (reprinted : Reprinted e) (behind : Behind rest) (offset : Nat) :
    ∃ stop, Expression.parseAt (skipBlanks ⟨offset, ' ' :: (e.print.toList ++ rest)⟩) = .ok (e, ⟨stop, rest⟩) := by
  obtain ⟨begun, skipped⟩ := skipBlanks_space (visible_print reprinted.1 rest) offset
  rw [skipped]
  exact parseAt_reprinted reprinted behind begun

/-! Attributes. -/

theorem attributeName_append (parts : ∀ c ∈ chars, c ≠ '=' ∧ c ≠ '>' ∧ Text.isBlank c = false) (ends : endsName rest = true)
    (noSlash : chars.getLast? = some '/' → rest.head? ≠ some '>') : attributeName (chars ++ rest) = chars := by
  induction chars with
  | nil =>
    cases rest with
    | nil => rfl
    | cons c tail => rw [List.nil_append, attributeName, if_pos ends]
  | cons c tail ih =>
    obtain ⟨noEquals, noClose, visible⟩ := parts c (List.mem_cons_self ..)
    have others : ∀ c ∈ tail, c ≠ '=' ∧ c ≠ '>' ∧ Text.isBlank c = false := fun d member => parts d (List.mem_cons_of_mem _ member)
    have noTag : Text.startsWith (c :: (tail ++ rest)) "/>" = false := by
      refine Bool.eq_false_iff.2 fun starts => ?_
      obtain ⟨slash, _, close⟩ : '/' = c ∧ ['>'] <+: tail ++ rest := List.cons_prefix_cons.1 (List.isPrefixOf_iff_prefix.1 starts)
      cases tail with
      | nil => exact noSlash (by rw [← slash]; rfl) (by rw [← List.nil_append rest, ← close]; rfl)
      | cons d more =>
        cases close
        exact (others '>' (List.mem_cons_self ..)).2.1 rfl
    have goesOn : endsName (c :: (tail ++ rest)) = false := by simp [endsName, noEquals, noClose, visible, noTag]
    rw [List.cons_append, attributeName, goesOn, if_neg (by decide), ih others]
    intro last
    cases tail with
    | nil => cases last
    | cons d more => exact noSlash (by rwa [List.getLast?_cons_cons])

theorem boundValue_print {e : Expression} (reprinted : Reprinted e) (offset : Nat) (rest : List Char) :
    ∃ stop, boundValue ⟨offset, e.print.toList ++ '"' :: rest⟩ = .ok (e, ⟨stop, rest⟩) := by
  obtain ⟨between, parsed⟩ := parseAt_reprinted reprinted (behind_quote rest) offset
  obtain ⟨stop, closed⟩ : ∃ stop, eat "\"" (skipBlanks ⟨between, '"' :: rest⟩) = .ok ⟨stop, rest⟩ := 
    eat_skipping rfl (visible_cons (by decide) _) between
  exact ⟨stop, bind_of_ok parsed (bind_of_ok closed rfl)⟩

/-- A name in front of a value in quotes. -/
theorem parseAttribute_quoted {name : List Char} (nonempty : name ≠ [])
    (parts : ∀ c ∈ name, c ≠ '=' ∧ c ≠ '>' ∧ Text.isBlank c = false) (offset : Nat) (rest : List Char) :
    ∃ between, parseAttribute ⟨offset, name ++ '=' :: '"' :: rest⟩ =
      match boundName? '[' ']' name, boundName? '(' ')' name with
      | some inner, _ => do
        let (value, cursor) ← boundValue ⟨between, rest⟩
        return (.property inner value, cursor)
      | none, some inner => do
        let (value, cursor) ← boundValue ⟨between, rest⟩
        return (.event inner value, cursor)
      | none, none => do
        let value := rest.takeWhile (· != '"')
        let cursor := (⟨between, rest⟩ : Cursor).drop value.length
        if cursor.rest.isEmpty then throw ((⟨offset, name ++ '=' :: '"' :: rest⟩ : Cursor).fault (.unterminatedValue (.ofList name)))
        return (.literal (.ofList name) (.ofList value), cursor.drop 1) := by
  have taken : attributeName (name ++ '=' :: '"' :: rest) = name := attributeName_append parts rfl (by simp)
  refine ⟨offset + Text.byteSize name + ('=').utf8Size + ('"').utf8Size, ?_⟩
  have filled : name.isEmpty = false := by simpa using nonempty
  have equals (offset : Nat) (tail : List Char) : startsWith ⟨offset, '=' :: tail⟩ "=" = true := by
    simp [startsWith, Text.startsWith]
  have quote (offset : Nat) (tail : List Char) : startsWith ⟨offset, '"' :: tail⟩ "\"" = true := by
    simp [startsWith, Text.startsWith]
  simp only [parseAttribute, taken, drop_append, filled, drop_one, equals, quote]
  rfl

theorem boundName?_enclosed {mark close : Char} {name : List Char} (nonempty : name ≠ []) :
    boundName? mark close (mark :: (name ++ [close])) = some (.ofList name) := by
  have long : 0 < name.length := List.length_pos_of_ne_nil nonempty
  simp [boundName?, long]

theorem boundName?_ne {mark close c : Char} (other : c ≠ mark) (tail : List Char) : boundName? mark close (c :: tail) = none := by
  simp [boundName?, other]

theorem AttributeName.enclosed {name : String} (named : AttributeName name) (mark close : Char)
    (markPart : mark ≠ '=' ∧ mark ≠ '>' ∧ Text.isBlank mark = false) (closePart : close ≠ '=' ∧ close ≠ '>' ∧ Text.isBlank close = false) :
    ∀ c ∈ mark :: (name.toList ++ [close]), c ≠ '=' ∧ c ≠ '>' ∧ Text.isBlank c = false := by
  intro c member
  simp only [List.mem_cons, List.mem_append, List.not_mem_nil, or_false] at member
  obtain rfl | inside | rfl := member
  · exact markPart
  · exact named.parts c inside
  · exact closePart

/-- What stands behind an attribute: a blank or the end of the tag. -/
def Parted (rest : List Char) : Prop := ∃ tail, rest = ' ' :: tail ∨ rest = '>' :: tail

theorem parseAttribute_print {attr : Attribute} (written : Written Reprinted attr) (parted : Parted rest)
    (noSlash : ∀ flag, attr = .flag flag → flag.toList.getLast? = some '/' → rest.head? ≠ some '>') (offset : Nat) :
    ∃ stop, parseAttribute ⟨offset, (printAttribute attr).toList ++ rest⟩ = .ok (attr, ⟨stop, rest⟩) := by
  cases written with
  | @flag name named =>
    have ends : endsName rest = true := by obtain ⟨tail, rfl | rfl⟩ := parted <;> rfl
    have taken : attributeName (name.toList ++ rest) = name.toList := attributeName_append named.parts ends (noSlash name rfl)
    have filled : name.toList.isEmpty = false := by simpa using named.nonempty
    have alone (offset : Nat) : startsWith ⟨offset, rest⟩ "=" = false := by
      obtain ⟨tail, rfl | rfl⟩ := parted <;> rfl
    refine ⟨offset + Text.byteSize name.toList, ?_⟩
    show parseAttribute ⟨offset, name.toList ++ rest⟩ = _
    simp only [parseAttribute, taken, drop_append, filled, alone, String.ofList_toList]
    rfl
  | @literal name value named noProperty noEvent noQuote =>
    obtain ⟨between, parsed⟩ := parseAttribute_quoted named.nonempty named.parts offset (value.toList ++ '"' :: rest)
    have inside : (value.toList ++ '"' :: rest).takeWhile (· != '"') = value.toList := by
      rw [List.takeWhile_append_of_pos (fun c member => by simpa using fun same : c = '"' => noQuote (same ▸ member))]
      simp
    refine ⟨between + Text.byteSize value.toList + ('"').utf8Size, ?_⟩
    have printed : (printAttribute (.literal name value)).toList ++ rest = name.toList ++ '=' :: '"' :: (value.toList ++ '"' :: rest) := by
      simp [printAttribute, Attribute.literal, printValue]
    rw [printed, parsed, noProperty, noEvent]
    simp only [inside, drop_append, drop_one, String.ofList_toList]
    rfl
  | @property name value named reprinted =>
    obtain ⟨between, parsed⟩ := parseAttribute_quoted (List.cons_ne_nil _ _) (named.enclosed '[' ']' (by decide) (by decide))
      offset (value.print.toList ++ '"' :: rest)
    obtain ⟨stop, bound⟩ := boundValue_print reprinted between rest
    refine ⟨stop, ?_⟩
    have printed : (printAttribute (.property name value)).toList ++ rest =
        ('[' :: (name.toList ++ [']'])) ++ '=' :: '"' :: (value.print.toList ++ '"' :: rest) := by
      simp [printAttribute, Attribute.property, printValue]
    rw [printed, parsed, boundName?_enclosed named.nonempty, bound, String.ofList_toList]
    rfl
  | @event name value named reprinted =>
    obtain ⟨between, parsed⟩ := parseAttribute_quoted (List.cons_ne_nil _ _) (named.enclosed '(' ')' (by decide) (by decide))
      offset (value.print.toList ++ '"' :: rest)
    obtain ⟨stop, bound⟩ := boundValue_print reprinted between rest
    refine ⟨stop, ?_⟩
    have printed : (printAttribute (.event name value)).toList ++ rest =
        ('(' :: (name.toList ++ [')'])) ++ '=' :: '"' :: (value.print.toList ++ '"' :: rest) := by
      simp [printAttribute, Attribute.event, printValue]
    rw [printed, parsed, boundName?_ne (by decide), boundName?_enclosed named.nonempty, bound, String.ofList_toList]
    rfl

theorem printAttributes_cons (attr : Attribute) (more : List Attribute) :
    (printAttributes (attr :: more)).toList = ' ' :: ((printAttribute attr).toList ++ (printAttributes more).toList) := by
  simp [printAttributes]

/-- No attribute starts like the end of a name. -/
theorem endsName_of_parseAttribute {start : Cursor} {found : Attribute × Cursor} (parsed : parseAttribute start = .ok found) :
    endsName start.rest = false := by
  refine Bool.eq_false_iff.2 fun ends => ?_
  have empty : attributeName start.rest = [] := by
    cases same : start.rest with
    | nil => rfl
    | cons c tail => rw [attributeName, ← same, if_pos ends]
  simp only [parseAttribute, empty] at parsed
  cases parsed

theorem goesOn_of_endsName (noEnd : endsName rest = false) (offset : Nat) :
    Visible rest ∧ startsWith ⟨offset, rest⟩ ">" = false ∧ startsWith ⟨offset, rest⟩ "/>" = false ∧ rest.isEmpty = false := by
  cases rest with
  | nil => cases noEnd
  | cons c tail =>
    simp only [endsName, Bool.or_eq_false_iff, beq_eq_false_iff_ne] at noEnd
    obtain ⟨⟨⟨_, noClose⟩, visible⟩, noTag⟩ := noEnd
    exact ⟨visible_cons visible tail, startsWith_of_ne rfl noClose tail, noTag, rfl⟩

theorem parted_printAttributes (attributes : List Attribute) (rest : List Char) :
    Parted ((printAttributes attributes).toList ++ '>' :: rest) := by
  cases attributes with
  | nil => exact ⟨rest, .inr rfl⟩
  | cons attr more => exact ⟨_, .inl (by rw [printAttributes_cons]; rfl)⟩

theorem parseAttributes_print {attributes : List Attribute} (written : ∀ attr ∈ attributes, Written Reprinted attr)
    (closed : ∀ flag, attributes.getLast? = some (.flag flag) → flag.toList.getLast? ≠ some '/') (bound : Nat)
    (enough : (printAttributes attributes).toList.length < bound) (offset : Nat) (rest : List Char) :
    ∃ stop, parseAttributes bound ⟨offset, (printAttributes attributes).toList ++ '>' :: rest⟩ = .ok (attributes, ⟨stop, '>' :: rest⟩) := by
  obtain ⟨bound, rfl⟩ := Nat.exists_eq_succ_of_ne_zero (Nat.ne_zero_of_lt enough)
  induction attributes generalizing bound offset with
  | nil =>
    refine ⟨offset, ?_⟩
    show parseAttributes (_ + 1) ⟨offset, '>' :: rest⟩ = _
    rw [parseAttributes, skipBlanks_visible (visible_cons (by decide) _)]
    rfl
  | cons attr more ih =>
    have noSlash : ∀ flag, attr = .flag flag → flag.toList.getLast? = some '/' →
        ((printAttributes more).toList ++ '>' :: rest).head? ≠ some '>' := by
      rintro flag rfl slash
      cases more with
      | nil => exact absurd slash (closed flag rfl)
      | cons next others =>
        rw [printAttributes_cons]
        exact fun same => by cases same
    have first := parseAttribute_print (written attr (List.mem_cons_self ..)) (parted_printAttributes more rest) noSlash
    have noEnd := endsName_of_parseAttribute (first 0).choose_spec
    obtain ⟨begun, skipped⟩ := skipBlanks_space (goesOn_of_endsName noEnd 0).1 offset
    obtain ⟨_, noClose, noTag, filled⟩ := goesOn_of_endsName noEnd begun
    obtain ⟨between, parsed⟩ := first begun
    rw [printAttributes_cons, List.length_cons, List.length_append] at enough
    obtain ⟨bound, rfl⟩ := Nat.exists_eq_succ_of_ne_zero (show bound ≠ 0 by omega)
    obtain ⟨stop, parsedMore⟩ := ih (fun other member => written other (List.mem_cons_of_mem _ member))
      (fun flag last => closed flag (by
        cases more with
        | nil => cases last
        | cons next others => rwa [List.getLast?_cons_cons]))
      between bound (by omega)
    refine ⟨stop, ?_⟩
    rw [printAttributes_cons, List.cons_append, List.append_assoc, parseAttributes]
    simp only [skipped, noClose, noTag, filled]
    exact bind_of_ok parsed (bind_of_ok parsedMore rfl)

/-! Texts. -/

/-- What stands behind a text: nothing, or something that ends it. -/
def Marker (rest : List Char) : Prop := rest = [] ∨ endsText rest = true

/-- The characters that something begins with which ends a text. -/
def markers : List Char := ['<', '\x7d', '\x7b', '@']

theorem Marker.head {c : Char} (marker : Marker rest) (head : rest.head? = some c) : c ∈ markers := by
  obtain rfl | ends := marker
  · cases head
  · simp only [endsText, List.any_cons, List.any_nil, Bool.or_false, Bool.or_eq_true, Text.startsWith,
      List.isPrefixOf_iff_prefix] at ends
    obtain ⟨_, rfl⟩ | ⟨_, rfl⟩ | ⟨_, rfl⟩ | ⟨_, rfl⟩ | ⟨_, rfl⟩ := ends <;> cases head <;> decide

theorem visible_of_mem_markers {c : Char} (member : c ∈ markers) : Text.isBlank c = false ∧ Text.isIdentifierPart c = false := by
  simp only [markers, List.mem_cons, List.not_mem_nil, or_false] at member
  obtain rfl | rfl | rfl | rfl := member <;> decide

theorem Marker.visible (marker : Marker rest) : Visible rest := by
  rintro c tail rfl
  exact (visible_of_mem_markers (marker.head rfl)).1

/-- A word at the front of two texts lies within the first, or reaches into the second. -/
theorem startsWith_of_append {word : String} {rest : List Char} (chars : List Char) (starts : Text.startsWith (chars ++ rest) word = true) :
    Text.startsWith chars word = true ∨ ∃ c more tail, word.toList = chars ++ c :: more ∧ rest = c :: tail := by
  have spelled : word.toList <+: chars ++ rest := List.isPrefixOf_iff_prefix.1 starts
  obtain within | ⟨more, reaches⟩ := List.prefix_or_prefix_of_prefix spelled (List.prefix_append chars rest)
  · exact .inl (List.isPrefixOf_iff_prefix.2 within)
  · rw [← reaches, List.prefix_append_right_inj] at spelled
    cases more with
    | nil => exact .inl (List.isPrefixOf_iff_prefix.2 (by rw [← reaches, List.append_nil]))
    | cons c more =>
      obtain ⟨tail, same⟩ := spelled
      exact .inr ⟨c, more, more ++ tail, reaches.symm, same.symm⟩

/-- Nothing that ends a text spans a text and what stands behind it, but for two braces. -/
theorem endsText_append {c : Char} (unbroken : endsText (c :: chars) = false) (marker : Marker rest)
    (noBrace : (c :: chars).getLast? = some '\x7b' → rest.head? ≠ some '\x7b') : endsText (c :: (chars ++ rest)) = false := by
  refine Bool.eq_false_iff.2 fun ends => ?_
  obtain ⟨word, listed, starts⟩ := List.any_eq_true.1 ends
  obtain within | ⟨d, more, tail, reaches, rfl⟩ := startsWith_of_append (c :: chars) starts
  · exact Bool.eq_false_iff.1 unbroken (List.any_eq_true.2 ⟨word, listed, within⟩)
  · -- Only the second of two braces is a marker itself.
    have only : ∀ word ∈ ["<", "\x7d", "\x7b\x7b", "@if", "@for"],
        (word.toList.tail.all fun d => !markers.contains d || (word == "\x7b\x7b" && d == '\x7b')) = true := by decide
    have here := List.all_eq_true.1 (only word listed) d (by rw [reaches]; simp)
    rw [List.contains_iff_mem.2 (marker.head rfl), Bool.not_true, Bool.false_or, Bool.and_eq_true, beq_iff_eq, beq_iff_eq] at here
    obtain ⟨rfl, rfl⟩ := here
    refine noBrace ?_ rfl
    obtain ⟨rfl, same⟩ : '\x7b' = c ∧ ['\x7b'] = chars ++ '\x7b' :: more := List.cons_eq_cons.1 reaches
    cases chars with
    | nil => rfl
    | cons _ others => cases others <;> cases same

theorem textRun_append (unbroken : ∀ behind ∈ chars.tails, endsText behind = false) (marker : Marker rest)
    (noBrace : chars.getLast? = some '\x7b' → rest.head? ≠ some '\x7b') : textRun (chars ++ rest) = chars := by
  induction chars with
  | nil =>
    obtain rfl | ends := marker
    · rfl
    · cases rest with
      | nil => rfl
      | cons c tail => rw [List.nil_append, textRun, if_pos ends]
  | cons c tail ih =>
    rw [List.cons_append, textRun, endsText_append (unbroken _ (List.mem_cons_self ..)) marker noBrace, if_neg (by decide), ih]
    · exact fun behind member => unbroken behind (List.mem_cons_of_mem _ member)
    · intro last
      cases tail with
      | nil => cases last
      | cons d more => exact noBrace (by rwa [List.getLast?_cons_cons])

/-- The white space at the end of a text. -/
def spaceBehind (chars : List Char) : List Char := (chars.reverse.takeWhile Text.isSpace).reverse

theorem trimRight_append (chars : List Char) : Text.trimRight chars ++ spaceBehind chars = chars := by
  rw [Text.trimRight, spaceBehind, ← List.reverse_append, List.takeWhile_append_dropWhile, List.reverse_reverse]

theorem withoutLayout_eq (chars : List Char) : withoutLayout chars = Text.trimRight chars ++ (spaceBehind chars).takeWhile (· != '\n') := by
  have behind : chars.drop (Text.trimRight chars).length = spaceBehind chars :=
    (congrArg (·.drop (Text.trimRight chars).length) (trimRight_append chars).symm).trans List.drop_left
  rw [withoutLayout, behind]

theorem withoutLayout_level (level : '\n' ∉ chars.reverse.takeWhile Text.isSpace) : withoutLayout chars = chars := by
  have whole : (spaceBehind chars).takeWhile (· != '\n') = spaceBehind chars :=
    List.takeWhile_eq_self_iff.2 fun c member => by
      simpa using fun same : c = '\n' => level (same ▸ List.mem_reverse.1 member)
  rw [withoutLayout_eq, whole, trimRight_append]

theorem parseText_plain {value : String} (plain : Plain value) (marker : Marker rest)
    (noBrace : value.toList.getLast? = some '\x7b' → rest.head? ≠ some '\x7b') (offset : Nat) :
    ∃ stop, parseText ⟨offset, value.toList ++ rest⟩ = (some (.text value), ⟨stop, rest⟩) := by
  refine ⟨offset + Text.byteSize value.toList, ?_⟩
  simp only [parseText, textRun_append plain.unbroken marker noBrace, withoutLayout_level plain.level, plain.filled,
    drop_append, String.ofList_toList]
  rfl

/-! Keywords. -/

theorem afterKeyword?_eq (keyword : String) (cursor : Cursor) :
    afterKeyword? keyword cursor = if startsWithWord keyword cursor.rest then some (cursor.drop keyword.length) else none := rfl

/-- The keywords of the branches that may come behind a block. -/
def branchWords : List String := ["@else", "@empty"]

theorem startsWithWord_marker (marker : Marker rest) {word : String} (listed : word ∈ branchWords) : startsWithWord word rest = false := by
  refine Bool.eq_false_iff.2 fun starts => ?_
  have spelled : word.toList <+: rest := List.isPrefixOf_iff_prefix.1 (Bool.and_eq_true_iff.1 starts).1
  obtain rfl | ends := marker
  · have filled : ∀ word ∈ branchWords, word.toList ≠ [] := by decide
    exact filled word listed (List.prefix_nil.1 spelled)
  · obtain ⟨front, isFront, starts⟩ := List.any_eq_true.1 ends
    have apart : ∀ word ∈ branchWords, ∀ front ∈ ["<", "\x7d", "\x7b\x7b", "@if", "@for"],
      ¬ word.toList <+: front.toList ∧ ¬ front.toList <+: word.toList := by decide
    obtain within | within := List.prefix_or_prefix_of_prefix spelled (List.isPrefixOf_iff_prefix.1 starts)
    · exact (apart word listed front isFront).1 within
    · exact (apart word listed front isFront).2 within

/-- What stands behind a text does not make a word of its end. -/
theorem startsWithWord_append {word : String} (listed : word ∈ branchWords) (nonempty : chars ≠ []) (marker : Marker rest)
    (noWord : startsWithWord word chars = false) : startsWithWord word (chars ++ rest) = false := by
  refine Bool.eq_false_iff.2 fun starts => ?_
  obtain ⟨front, noPart⟩ := Bool.and_eq_true_iff.1 starts
  obtain within | ⟨c, more, tail, reaches, rfl⟩ := startsWith_of_append chars front
  · have long : word.length ≤ chars.length := by
      simpa only [String.length_toList] using (List.isPrefixOf_iff_prefix.1 within).length_le
    rw [startsWithWord, within, Bool.true_and] at noWord
    rw [List.drop_append_of_le_length long] at noPart
    cases behind : chars.drop word.length with
    | nil => simp [behind] at noWord
    | cons c tail => simp_all
  · have apart : ∀ word ∈ branchWords, (word.toList.tail.all fun c => !markers.contains c) = true := by decide
    obtain ⟨first, others, rfl⟩ := List.exists_cons_of_ne_nil nonempty
    have here := List.all_eq_true.1 (apart word listed) c (by rw [reaches]; simp)
    rw [List.contains_iff_mem.2 (marker.head rfl)] at here
    cases here

/-! Siblings. -/

/-- What an ending is written as. -/
def Closes : Ending → List Char → Prop
  | .text, rest => rest = []
  | .tag name _, rest => ∃ tail, rest = ("</" ++ name ++ ">").toList ++ tail
  | .block _ _, rest => ∃ tail, rest = '\x7d' :: tail

theorem Closes.isAt {ending : Ending} (closes : Closes ending rest) (offset : Nat) : ending.isAt ⟨offset, rest⟩ = true := by
  cases ending with
  | text => cases closes; rfl
  | tag name start =>
    obtain ⟨tail, rfl⟩ := closes
    exact startsWith_append _
  | block name start =>
    obtain ⟨tail, rfl⟩ := closes
    exact startsWith_append "\x7d"

theorem Closes.marker {ending : Ending} (closes : Closes ending rest) : Marker rest := by
  cases ending with
  | text => exact .inl closes
  | tag name start =>
    obtain ⟨tail, rfl⟩ := closes
    refine .inr ?_
    simp [endsText, Text.startsWith]
  | block name start =>
    obtain ⟨tail, rfl⟩ := closes
    refine .inr ?_
    simp [endsText, Text.startsWith]

/-- What a node starts with: neither a blank nor the start of an ending. -/
structure Opens (chars : List Char) : Prop where
  filled : chars.isEmpty = false
  visible : Visible chars
  noBrace : Text.startsWith chars "\x7d" = false
  noTag : Text.startsWith chars "</" = false

theorem Opens.not_isAt (opens : Opens chars) (ending : Ending) (offset : Nat) : ending.isAt ⟨offset, chars⟩ = false := by
  cases ending with
  | text => exact opens.filled
  | tag name start =>
    refine Bool.eq_false_iff.2 fun starts => Bool.eq_false_iff.1 opens.noTag ?_
    have spelled := List.isPrefixOf_iff_prefix.1 starts
    rw [String.append_assoc, String.toList_append] at spelled
    exact List.isPrefixOf_iff_prefix.2 ((List.prefix_append ..).trans spelled)
  | block name start => exact opens.noBrace

theorem opens_cons {c : Char} (visible : Text.isBlank c = false) (noBrace : c ≠ '\x7d') (noTag : c ≠ '<') (tail : List Char) :
    Opens (c :: tail) :=
  ⟨rfl, visible_cons visible tail, startsWith_of_ne rfl noBrace tail, startsWith_of_ne rfl noTag tail⟩

/-- Siblings are read back in front of any ending. -/
def Rereads (nodes : List Markup) : Prop :=
  ∀ depth ending rest offset, Closes ending rest → 8 * (printAll nodes).toList.length < depth →
    ∃ stop, parseSiblings depth ending ⟨offset, (printAll nodes).toList ++ rest⟩ = .ok (nodes, ⟨stop, rest⟩)

theorem rereads_nil : Rereads [] := by
  rintro (_ | depth) ending rest offset closes enough
  · exact absurd enough (Nat.not_lt_zero _)
  refine ⟨offset, ?_⟩
  show parseSiblings (depth + 1) ending ⟨offset, rest⟩ = _
  rw [parseSiblings, skipBlanks_visible closes.marker.visible]
  simp only [closes.isAt]
  rfl

/-- What stands behind a node. -/
def Follows (nodes : List Markup) (rest : List Char) : Prop :=
  ∃ ending closing, Closes ending closing ∧ rest = (printAll nodes).toList ++ closing

theorem rereads_cons {node : Markup} {others : List Markup} (opens : ∀ rest, Opens ((print node).toList ++ rest))
    (first : ∀ depth rest offset, Follows others rest → 8 * (print node).toList.length ≤ depth + 1 →
      ∃ stop, parseNode (depth + 1) ⟨offset, (print node).toList ++ rest⟩ = .ok (some node, ⟨stop, rest⟩))
    (more : Rereads others) : Rereads (node :: others) := by
  rintro (_ | depth) ending rest offset closes enough
  · exact absurd enough (Nat.not_lt_zero _)
  have filled : 0 < (print node).toList.length := by
    have filled := (opens []).filled
    rw [List.append_nil] at filled
    exact List.length_pos_of_ne_nil (List.isEmpty_eq_false_iff.1 filled)
  rw [printAll_cons, String.toList_append] at enough ⊢
  rw [List.length_append] at enough
  obtain ⟨depth, rfl⟩ := Nat.exists_eq_succ_of_ne_zero (show depth ≠ 0 by omega)
  obtain ⟨between, parsed⟩ := first depth _ offset ⟨ending, rest, closes, rfl⟩ (by omega)
  obtain ⟨stop, parsedMore⟩ := more (depth + 1) ending rest between closes (by omega)
  refine ⟨stop, ?_⟩
  have noBrace (offset : Nat) : startsWith ⟨offset, (print node).toList ++ ((printAll others).toList ++ rest)⟩ "\x7d" = false :=
    (opens _).noBrace
  rw [List.append_assoc, parseSiblings, skipBlanks_visible (opens _).visible]
  simp only [(opens _).not_isAt, (opens _).filled, noBrace]
  exact bind_of_ok parsed (bind_of_ok parsedMore rfl)

variable {host : Expression → Prop} {tight : Prop} {nodes : List Markup}

theorem Follows.marker (follows : Follows nodes rest) (noText : ∀ value more, nodes ≠ .text value :: more) : Marker rest := by
  obtain ⟨ending, closing, closes, rfl⟩ := follows
  rcases nodes with _ | ⟨node, more⟩
  · exact closes.marker
  · refine .inr ?_
    cases node with
    | text value => exact absurd rfl (noText value more)
    | element | expression | conditional | loop => simp [printAll, print, printBlock, endsText, Text.startsWith]

/-- Only an interpolation starts with a brace. -/
theorem Follows.brace (follows : Follows nodes rest) (noText : ∀ value more, nodes ≠ .text value :: more)
    (noBrace : ∀ e more, nodes ≠ .expression e :: more) : rest.head? ≠ some '\x7b' := by
  obtain ⟨ending, closing, closes, rfl⟩ := follows
  rcases nodes with _ | ⟨node, more⟩
  · cases ending with
    | text => cases closes; exact fun same => by cases same
    | tag => obtain ⟨tail, rfl⟩ := closes; simp [printAll]
    | block => obtain ⟨tail, rfl⟩ := closes; simp [printAll]
  · cases node with
    | text value => exact absurd rfl (noText value more)
    | expression e => exact absurd rfl (noBrace e more)
    | element | conditional | loop => simp [printAll, print, printBlock]

theorem Plain.nonempty {value : String} (plain : Plain value) : value.toList ≠ [] := by
  intro empty
  have filled := plain.filled
  rw [empty] at filled
  cases filled

theorem Plain.noEnd {value : String} (plain : Plain value) : endsText value.toList = false :=
  plain.unbroken _ ((List.mem_tails ..).2 (List.suffix_refl _))

theorem Follows.apart {word : String} (follows : Follows nodes rest) (laid : Laid host tight nodes) (listed : word ∈ branchWords)
    (noWord : ∀ value more, nodes = .text value :: more → startsWithWord word value.toList = false) :
    Visible rest ∧ startsWithWord word rest = false := by
  cases laid with
  | @text value others plain apart _ laidOthers =>
    obtain ⟨ending, closing, closes, rfl⟩ := follows
    have marker : Marker ((printAll others).toList ++ closing) := Follows.marker ⟨ending, closing, closes, rfl⟩ apart
    rw [printAll_cons, print_text, String.toList_append, List.append_assoc]
    refine ⟨?_, startsWithWord_append listed plain.nonempty marker (noWord value others rfl)⟩
    obtain ⟨c, tail, same⟩ := List.exists_cons_of_ne_nil plain.nonempty
    rw [same]
    exact visible_cons (plain.visible c (by rw [same]; rfl)) _
  | nil | element | expression | conditional | loop =>
    have marker := follows.marker (fun _ _ same => by cases same)
    exact ⟨marker.visible, startsWithWord_marker marker listed⟩

theorem not_startsWith_of_endsText (noEnd : endsText chars = false) (front : String)
    (listed : front ∈ ["<", "\x7d", "\x7b\x7b", "@if", "@for"]) : Text.startsWith chars front = false :=
  Bool.eq_false_iff.2 (List.any_eq_false.1 noEnd front listed)

theorem rereads_text {value : String} (plain : Plain value) (apart : ∀ other more, nodes ≠ .text other :: more)
    (noBrace : value.toList.getLast? = some '\x7b' → ∀ e more, nodes ≠ .expression e :: more) (more : Rereads nodes) :
    Rereads (.text value :: nodes) := by
  obtain ⟨c, tail, same⟩ := List.exists_cons_of_ne_nil plain.nonempty
  refine rereads_cons (fun rest => ?_) (fun depth rest offset follows enough => ?_) more
  · have noEnd : endsText value.toList = false := plain.noEnd
    have noBrace := not_startsWith_of_endsText noEnd "\x7d" (by decide)
    have noTag := not_startsWith_of_endsText noEnd "<" (by decide)
    rw [same] at noBrace noTag
    rw [print_text, same, List.cons_append]
    refine opens_cons (plain.visible c (by rw [same]; rfl)) ?_ ?_ _
    · rintro rfl; cases noBrace
    · rintro rfl; cases noTag
  · have marker := follows.marker apart
    have noBrace := fun last => follows.brace apart (noBrace last)
    obtain ⟨stop, parsed⟩ := parseText_plain plain marker noBrace offset
    have noEnd : endsText (value.toList ++ rest) = false := by
      rw [same] at noBrace ⊢
      exact endsText_append (same ▸ plain.noEnd) marker noBrace
    have noStart (front : String) (listed : front ∈ ["<", "\x7d", "\x7b\x7b", "@if", "@for"]) (offset : Nat) :
      startsWith ⟨offset, value.toList ++ rest⟩ front = false := not_startsWith_of_endsText noEnd front listed
    refine ⟨stop, ?_⟩
    rw [print_text, parseNode]
    simp only [noStart "<" (by decide), noStart "\x7b\x7b" (by decide), noStart "@if" (by decide), noStart "@for" (by decide), parsed]
    rfl

theorem parseInterpolation_print {e : Expression} (reprinted : Reprinted e) (offset : Nat) (rest : List Char) :
    ∃ stop, parseInterpolation ⟨offset, (print (.expression e)).toList ++ rest⟩ = .ok (e, ⟨stop, rest⟩) := by
  obtain ⟨opened, eaten⟩ := eat_append "\x7b\x7b" offset (' ' :: (e.print.toList ++ ' ' :: '\x7d' :: '\x7d' :: rest))
  obtain ⟨ended, parsed⟩ := parseAt_spaced reprinted (behind_spacedBrace ('\x7d' :: rest)) opened
  obtain ⟨stop, closed⟩ : ∃ stop, eat "\x7d\x7d" (skipBlanks ⟨ended, ' ' :: '\x7d' :: '\x7d' :: rest⟩) = .ok ⟨stop, rest⟩ :=
    eat_spaced rfl (visible_cons (by decide) _) ended
  have printed : (print (.expression e)).toList ++ rest =
      "\x7b\x7b".toList ++ ' ' :: (e.print.toList ++ ' ' :: '\x7d' :: '\x7d' :: rest) := by simp [print]
  rw [printed]
  exact ⟨stop, bind_of_ok eaten (bind_of_ok parsed (bind_of_ok closed rfl))⟩

theorem rereads_expression {e : Expression} (reprinted : Reprinted e) (more : Rereads nodes) : Rereads (.expression e :: nodes) := by
  have start (rest : List Char) : ∃ tail, (print (.expression e)).toList ++ rest = '\x7b' :: '\x7b' :: tail :=
    ⟨' ' :: (e.print.toList ++ ' ' :: '\x7d' :: '\x7d' :: rest), by simp [print]⟩
  refine rereads_cons (fun rest => ?_) (fun depth rest offset follows enough => ?_) more
  · obtain ⟨tail, same⟩ := start rest
    rw [same]
    exact opens_cons (by decide) (by decide) (by decide) _
  · obtain ⟨stop, parsed⟩ := parseInterpolation_print reprinted offset rest
    obtain ⟨tail, same⟩ := start rest
    rw [same] at parsed ⊢
    exact ⟨stop, by rw [parseNode, if_neg (by simp [startsWith, Text.startsWith]), if_pos (by simp [startsWith, Text.startsWith]), parsed]; rfl⟩

theorem parseParenthesized_print {e : Expression} (reprinted : Reprinted e) (offset : Nat) (rest : List Char) :
    ∃ stop, parseParenthesized ⟨offset, ' ' :: '(' :: (e.print.toList ++ ')' :: rest)⟩ = .ok (e, ⟨stop, rest⟩) := by
  obtain ⟨opened, eaten⟩ : ∃ stop, eat "(" (skipBlanks ⟨offset, ' ' :: '(' :: (e.print.toList ++ ')' :: rest)⟩) = .ok ⟨stop, _⟩ :=
    eat_spaced rfl (visible_cons (by decide) _) offset
  obtain ⟨ended, parsed⟩ := parseAt_skipping reprinted (behind_close rest) opened
  obtain ⟨stop, closed⟩ : ∃ stop, eat ")" (skipBlanks ⟨ended, ')' :: rest⟩) = .ok ⟨stop, rest⟩ :=
    eat_skipping rfl (visible_cons (by decide) _) ended
  exact ⟨stop, bind_of_ok eaten (bind_of_ok parsed (bind_of_ok closed rfl))⟩

theorem afterKeyword?_spaced (word : String) {c : Char} {more : List Char} (spelled : word.toList = c :: more)
    (visible : Text.isBlank c = false) (offset : Nat) (rest : List Char) :
    ∃ stop, afterKeyword? word (skipBlanks ⟨offset, ' ' :: (word.toList ++ ' ' :: rest)⟩) = some ⟨stop, ' ' :: rest⟩ := by
  have visible : Visible (word.toList ++ ' ' :: rest) := by
    rw [spelled]
    exact visible_cons visible _
  obtain ⟨begun, skipped⟩ := skipBlanks_space visible offset
  have isWord : startsWithWord word (word.toList ++ ' ' :: rest) = true := by
    rw [startsWithWord, ← String.length_toList, List.drop_left]
    simp [Text.startsWith, Text.isIdentifierPart, Text.isIdentifierStart]
  refine ⟨begun + Text.byteSize word.toList, ?_⟩
  rw [skipped, afterKeyword?_eq, isWord, if_pos rfl, ← String.length_toList, drop_append]

theorem eatKeyword_spaced (word : String) {c : Char} {more : List Char} (spelled : word.toList = c :: more)
    (visible : Text.isBlank c = false) (offset : Nat) (rest : List Char) :
    ∃ stop, eatKeyword word (skipBlanks ⟨offset, ' ' :: (word.toList ++ ' ' :: rest)⟩) = .ok ⟨stop, ' ' :: rest⟩ := by
  obtain ⟨stop, found⟩ := afterKeyword?_spaced word spelled visible offset rest
  exact ⟨stop, by rw [eatKeyword, found]; rfl⟩

/-- The text of a loop's head. -/
def headText (head : LoopHead) : String :=
  "(" ++ head.item.print ++ " of " ++ head.items.print ++ "; track " ++ head.track.print ++ ")"

theorem parseLoopHead_print {head : LoopHead} (item : Reprinted head.item) (items : Reprinted head.items) (track : Reprinted head.track)
    (offset : Nat) (rest : List Char) :
    ∃ stop, parseLoopHead ⟨offset, ' ' :: ((headText head).toList ++ rest)⟩ = .ok (head, ⟨stop, rest⟩) := by
  let behindTrack := ')' :: rest
  let behindItems := ';' :: ' ' :: ("track".toList ++ ' ' :: (head.track.print.toList ++ behindTrack))
  let behindItem := ' ' :: ("of".toList ++ ' ' :: (head.items.print.toList ++ behindItems))
  obtain ⟨opened, eaten⟩ : ∃ stop, eat "(" (skipBlanks ⟨offset, ' ' :: '(' :: (head.item.print.toList ++ behindItem)⟩) = .ok ⟨stop, _⟩ :=
    eat_spaced rfl (visible_cons (by decide) _) offset
  obtain ⟨first, parsed⟩ := parseAt_skipping item (show Behind behindItem from behind_word (by decide) _) opened
  obtain ⟨second, isOf⟩ := eatKeyword_spaced "of" rfl (by decide) first (head.items.print.toList ++ behindItems)
  obtain ⟨third, parsedItems⟩ := parseAt_spaced items (show Behind behindItems from behind_semicolon _) second
  obtain ⟨fourth, parted⟩ : ∃ stop, eat ";" (skipBlanks ⟨third, behindItems⟩) = .ok ⟨stop, _⟩ :=
    eat_skipping rfl (visible_cons (by decide) _) third
  obtain ⟨fifth, isTrack⟩ := eatKeyword_spaced "track" rfl (by decide) fourth (head.track.print.toList ++ behindTrack)
  obtain ⟨sixth, parsedTrack⟩ := parseAt_spaced track (show Behind behindTrack from behind_close _) fifth
  obtain ⟨stop, closed⟩ : ∃ stop, eat ")" (skipBlanks ⟨sixth, behindTrack⟩) = .ok ⟨stop, rest⟩ :=
    eat_skipping rfl (visible_cons (by decide) _) sixth
  have printed : ' ' :: ((headText head).toList ++ rest) = ' ' :: '(' :: (head.item.print.toList ++ behindItem) := by
    simp [headText, behindItem, behindItems, behindTrack]
  rw [printed]
  exact ⟨stop, bind_of_ok eaten (bind_of_ok parsed (bind_of_ok isOf (bind_of_ok parsedItems (bind_of_ok parted
    (bind_of_ok isTrack (bind_of_ok parsedTrack (bind_of_ok closed rfl)))))))⟩

/-! Blocks. -/

theorem toList_printBlock (head body : String) :
    (printBlock head body).toList = head.toList ++ ' ' :: '\x7b' :: (body.toList ++ ['\x7d']) := by
  simp [printBlock]

theorem parseBlock_print {body : List Markup} (rereads : Rereads body) (depth : Nat) (enough : 8 * (printAll body).toList.length + 1 < depth)
    (block : String) (offset : Nat) (rest : List Char) :
    ∃ stop, parseBlock depth block ⟨offset, ' ' :: '\x7b' :: ((printAll body).toList ++ '\x7d' :: rest)⟩ = .ok (body, ⟨stop, rest⟩) := by
  obtain ⟨depth, rfl⟩ := Nat.exists_eq_succ_of_ne_zero (Nat.ne_zero_of_lt enough)
  obtain ⟨opened, eaten⟩ : ∃ stop, eat "\x7b" (skipBlanks ⟨offset, ' ' :: '\x7b' :: ((printAll body).toList ++ '\x7d' :: rest)⟩) = .ok ⟨stop, _⟩ :=
    eat_spaced rfl (visible_cons (by decide) _) offset
  obtain ⟨ended, parsed⟩ := rereads depth
    (.block block (skipBlanks ⟨offset, ' ' :: '\x7b' :: ((printAll body).toList ++ '\x7d' :: rest)⟩).offset) ('\x7d' :: rest) opened
    ⟨rest, rfl⟩ (by omega)
  obtain ⟨stop, closed⟩ := eat_append "\x7d" ended rest
  rw [parseBlock]
  exact ⟨stop, bind_of_ok eaten (bind_of_ok parsed (bind_of_ok closed rfl))⟩

/-- The text of the branches behind the first. -/
def elsesText (others : List (Branch Markup)) (otherwise : List Markup) : String :=
  printBranches others ++ if otherwise.isEmpty then "" else printBlock " @else" (printAll otherwise)

theorem parseElses_none (visible : Visible rest) (noElse : startsWithWord "@else" rest = false) (depth : Nat) (final : Bool) (offset : Nat) :
    parseElses (depth + 1) final ⟨offset, rest⟩ = .ok (([], []), ⟨offset, rest⟩) := by
  have none : afterKeyword? "@else" (skipBlanks ⟨offset, rest⟩) = none := by
    rw [skipBlanks_visible visible, afterKeyword?_eq, noElse]
    rfl
  rw [parseElses, none]
  rfl

theorem parseElses_otherwise {otherwise : List Markup} (rereads : Rereads otherwise) (visible : Visible rest)
    (noElse : startsWithWord "@else" rest = false) (depth : Nat) (enough : 8 * (elsesText [] otherwise).toList.length < depth) (offset : Nat) :
    ∃ stop, parseElses depth false ⟨offset, (elsesText [] otherwise).toList ++ rest⟩ = .ok (([], otherwise), ⟨stop, rest⟩) := by
  obtain ⟨depth, rfl⟩ := Nat.exists_eq_succ_of_ne_zero (Nat.ne_zero_of_lt enough)
  by_cases empty : otherwise = []
  · subst empty
    exact ⟨offset, parseElses_none visible noElse depth false offset⟩
  · have printed : (elsesText [] otherwise).toList = ' ' :: ("@else".toList ++ ' ' :: '\x7b' :: ((printAll otherwise).toList ++ ['\x7d'])) := by
      simp [elsesText, printBranches_nil, toList_printBlock, empty]
    have long := congrArg List.length printed
    simp only [List.length_cons, List.length_append] at long
    obtain ⟨depth, rfl⟩ := Nat.exists_eq_succ_of_ne_zero (show depth ≠ 0 by omega)
    obtain ⟨begun, found⟩ := afterKeyword?_spaced "@else" rfl (by decide) offset ('\x7b' :: ((printAll otherwise).toList ++ '\x7d' :: rest))
    have noIf : afterKeyword? "if" (skipBlanks ⟨begun, ' ' :: '\x7b' :: ((printAll otherwise).toList ++ '\x7d' :: rest)⟩) = none := by
      obtain ⟨_, skipped⟩ := skipBlanks_space (visible_cons (c := '\x7b') (by decide) ((printAll otherwise).toList ++ '\x7d' :: rest)) begun
      rw [skipped]
      rfl
    obtain ⟨stop, parsed⟩ := parseBlock_print rereads (depth + 1) (by omega) "@else" begun rest
    refine ⟨stop, ?_⟩
    rw [printed, List.cons_append, List.append_assoc, List.cons_append, List.cons_append, List.append_assoc, parseElses, List.singleton_append, found]
    dsimp only
    rw [if_neg (by decide), noIf]
    exact bind_of_ok parsed (bind_of_ok (parseElses_none visible noElse depth true stop) rfl)

theorem parseElses_print {others : List (Branch Markup)} {otherwise : List Markup} (tests : ∀ branch ∈ others, Reprinted branch.test)
    (bodies : ∀ branch ∈ others, Rereads branch.body) (rereads : Rereads otherwise) (visible : Visible rest)
    (noElse : startsWithWord "@else" rest = false) (depth : Nat) (enough : 8 * (elsesText others otherwise).toList.length < depth) (offset : Nat) :
    ∃ stop, parseElses depth false ⟨offset, (elsesText others otherwise).toList ++ rest⟩ = .ok ((others, otherwise), ⟨stop, rest⟩) := by
  induction others generalizing depth offset with
  | nil => exact parseElses_otherwise rereads visible noElse depth enough offset
  | cons branch more ih =>
    obtain ⟨test, body⟩ := branch
    obtain ⟨depth, rfl⟩ := Nat.exists_eq_succ_of_ne_zero (Nat.ne_zero_of_lt enough)
    let behindBody := (elsesText more otherwise).toList ++ rest
    let behindTest := ' ' :: '\x7b' :: ((printAll body).toList ++ '\x7d' :: behindBody)
    have printed : (elsesText (⟨test, body⟩ :: more) otherwise).toList ++ rest =
        ' ' :: ("@else".toList ++ ' ' :: ("if".toList ++ ' ' :: '(' :: (test.print.toList ++ ')' :: behindTest))) := by
      simp [elsesText, printBranches, toList_printBlock, behindTest, behindBody]
    have long := congrArg List.length printed
    simp only [behindTest, behindBody, List.length_cons, List.length_append] at long
    obtain ⟨begun, found⟩ := afterKeyword?_spaced "@else" rfl (by decide) offset ("if".toList ++ ' ' :: '(' :: (test.print.toList ++ ')' :: behindTest))
    obtain ⟨opened, foundIf⟩ := afterKeyword?_spaced "if" rfl (by decide) begun ('(' :: (test.print.toList ++ ')' :: behindTest))
    obtain ⟨tested, parsedTest⟩ := parseParenthesized_print (tests _ (List.mem_cons_self ..)) opened behindTest
    obtain ⟨ended, parsed⟩ := parseBlock_print (bodies _ (List.mem_cons_self ..)) depth (by dsimp only; omega) "@else if" tested behindBody
    obtain ⟨stop, parsedMore⟩ := ih (fun other member => tests other (List.mem_cons_of_mem _ member))
      (fun other member => bodies other (List.mem_cons_of_mem _ member)) depth (by omega) ended
    refine ⟨stop, ?_⟩
    rw [printed, parseElses, found]
    dsimp only
    rw [if_neg (by decide), foundIf]
    exact bind_of_ok parsedTest (bind_of_ok parsed (bind_of_ok parsedMore rfl))

theorem rereads_conditional {test : Expression} {body otherwise : List Markup} {others : List (Branch Markup)} (reprinted : Reprinted test)
    (tests : ∀ branch ∈ others, Reprinted branch.test) (rereads : Rereads body) (bodies : ∀ branch ∈ others, Rereads branch.body)
    (last : Rereads otherwise) (apart : ∀ rest, Follows nodes rest → Visible rest ∧ startsWithWord "@else" rest = false) (more : Rereads nodes) :
    Rereads (.conditional test body others otherwise :: nodes) := by
  have printed (rest : List Char) : (print (.conditional test body others otherwise)).toList ++ rest =
      "@if".toList ++ ' ' :: '(' :: (test.print.toList ++ ')' :: ' ' :: '\x7b' :: ((printAll body).toList ++ '\x7d' ::
        ((elsesText others otherwise).toList ++ rest))) := by
    simp [print, toList_printBlock, elsesText]
  refine rereads_cons (fun rest => ?_) (fun depth rest offset follows enough => ?_) more
  · rw [printed]
    exact opens_cons (by decide) (by decide) (by decide) _
  · obtain ⟨visible, noElse⟩ := apart rest follows
    have long := congrArg List.length (printed [])
    simp only [List.append_nil, List.length_cons, List.length_append] at long
    obtain ⟨depth, rfl⟩ := Nat.exists_eq_succ_of_ne_zero (show depth ≠ 0 by omega)
    let behindBody := (elsesText others otherwise).toList ++ rest
    let behindTest := ' ' :: '\x7b' :: ((printAll body).toList ++ '\x7d' :: behindBody)
    obtain ⟨tested, parsedTest⟩ := parseParenthesized_print reprinted (offset + Text.byteSize "@if".toList) behindTest
    obtain ⟨ended, parsed⟩ := parseBlock_print rereads depth (by omega) "@if" tested behindBody
    obtain ⟨stop, parsedElses⟩ := parseElses_print tests bodies last visible noElse depth (by omega) ended
    refine ⟨stop, ?_⟩
    rw [printed, parseNode, if_neg (by simp [startsWith, Text.startsWith]), if_neg (by simp [startsWith, Text.startsWith]),
      if_pos (startsWith_append "@if"), show 3 = "@if".toList.length from rfl, drop_append, parseConditional]
    exact bind_of_ok (bind_of_ok parsedTest (bind_of_ok parsed (bind_of_ok parsedElses rfl))) rfl

/-- The text of the branch of a loop without items. -/
def emptyText (empty : List Markup) : String := if empty.isEmpty then "" else printBlock " @empty" (printAll empty)

theorem length_emptyText (empty : List Markup) : (printAll empty).toList.length ≤ (emptyText empty).toList.length := by
  cases empty with
  | nil => exact Nat.le_refl _
  | cons node more =>
    rw [emptyText, if_neg (by simp), toList_printBlock]
    simp only [List.length_append, List.length_cons]
    omega

theorem parseLoop_print (head : LoopHead) {body empty : List Markup} (item : Reprinted head.item) (items : Reprinted head.items)
    (track : Reprinted head.track) (rereads : Rereads body) (rereadsEmpty : Rereads empty)
    (apart : empty = [] → Visible rest ∧ startsWithWord "@empty" rest = false) (depth : Nat) (enough : 8 * (printAll body).toList.length + 1 < depth)
    (enoughEmpty : 8 * (printAll empty).toList.length + 1 < depth) (offset : Nat) :
    ∃ stop, parseLoop (depth + 1) ⟨offset, ' ' :: ((headText head).toList ++ ' ' :: '\x7b' :: ((printAll body).toList ++ '\x7d' ::
        ((emptyText empty).toList ++ rest)))⟩ =
      .ok (.loop head.item head.items head.track body empty, ⟨stop, rest⟩) := by
  let behindBody := (emptyText empty).toList ++ rest
  obtain ⟨begun, parsedHead⟩ := parseLoopHead_print item items track offset (' ' :: '\x7b' :: ((printAll body).toList ++ '\x7d' :: behindBody))
  obtain ⟨ended, parsed⟩ := parseBlock_print rereads depth enough "@for" begun behindBody
  by_cases isEmpty : empty = []
  · obtain ⟨visible, noEmpty⟩ := apart isEmpty
    have none : afterKeyword? "@empty" (skipBlanks ⟨ended, behindBody⟩) = none := by
      rw [show behindBody = rest by simp [behindBody, emptyText, isEmpty], skipBlanks_visible visible, afterKeyword?_eq, noEmpty]
      rfl
    refine ⟨ended, ?_⟩
    rw [parseLoop]
    refine bind_of_ok parsedHead (bind_of_ok parsed ?_)
    dsimp only
    rw [none]
    simp [isEmpty, behindBody, emptyText]
    rfl
  · have printed : behindBody = ' ' :: ("@empty".toList ++ ' ' :: '\x7b' :: ((printAll empty).toList ++ '\x7d' :: rest)) := by
      simp [behindBody, emptyText, isEmpty, toList_printBlock]
    obtain ⟨opened, found⟩ := afterKeyword?_spaced "@empty" rfl (by decide) ended ('\x7b' :: ((printAll empty).toList ++ '\x7d' :: rest))
    obtain ⟨stop, parsedEmpty⟩ := parseBlock_print rereadsEmpty depth enoughEmpty "@empty" opened rest
    refine ⟨stop, ?_⟩
    rw [parseLoop]
    refine bind_of_ok parsedHead (bind_of_ok parsed ?_)
    dsimp only
    rw [printed, found]
    exact bind_of_ok parsedEmpty rfl

theorem rereads_loop {item items track : Expression} {body empty : List Markup} (reprinted : Reprinted item) (reprintedItems : Reprinted items)
    (reprintedTrack : Reprinted track) (rereads : Rereads body) (rereadsEmpty : Rereads empty)
    (apart : ∀ rest, Follows nodes rest → empty = [] → Visible rest ∧ startsWithWord "@empty" rest = false) (more : Rereads nodes) :
    Rereads (.loop item items track body empty :: nodes) := by
  have printed (rest : List Char) : (print (.loop item items track body empty)).toList ++ rest =
      "@for".toList ++ ' ' :: ((headText ⟨item, items, track⟩).toList ++ ' ' :: '\x7b' :: ((printAll body).toList ++ '\x7d' ::
        ((emptyText empty).toList ++ rest))) := by
    simp [print, toList_printBlock, headText, emptyText]
  refine rereads_cons (fun rest => ?_) (fun depth rest offset follows enough => ?_) more
  · rw [printed]
    exact opens_cons (by decide) (by decide) (by decide) _
  · have long := congrArg List.length (printed [])
    have longEmpty := length_emptyText empty
    simp only [List.append_nil, List.length_cons, List.length_append] at long
    obtain ⟨depth, rfl⟩ := Nat.exists_eq_succ_of_ne_zero (show depth ≠ 0 by omega)
    obtain ⟨stop, parsed⟩ := parseLoop_print ⟨item, items, track⟩ reprinted reprintedItems reprintedTrack rereads rereadsEmpty
      (apart rest follows) depth (by omega) (by omega) (offset + Text.byteSize "@for".toList)
    refine ⟨stop, ?_⟩
    rw [printed, parseNode, if_neg (by simp [startsWith, Text.startsWith]), if_neg (by simp [startsWith, Text.startsWith]),
      if_neg (by simp [startsWith, Text.startsWith]), if_pos (startsWith_append "@for"), show 4 = "@for".toList.length from rfl, drop_append]
    exact bind_of_ok parsed rfl

/-! Elements. -/

theorem takeWhile_tagName {name : String} (named : TagName name) (parted : Parted rest) :
    (name.toList ++ rest).takeWhile Text.isTagPart = name.toList := by
  rw [List.takeWhile_append_of_pos named.parts]
  obtain ⟨tail, rfl | rfl⟩ := parted
  · rw [List.takeWhile_cons_of_neg (by decide), List.append_nil]
  · rw [List.takeWhile_cons_of_neg (by decide), List.append_nil]

theorem parseElement_print {name : String} {attributes : List Attribute} {children : List Markup} (named : TagName name)
    (written : ∀ attr ∈ attributes, Written Reprinted attr)
    (closed : ∀ flag, attributes.getLast? = some (.flag flag) → flag.toList.getLast? ≠ some '/') (rereads : Rereads children)
    (depth : Nat) (enough : 8 * (printAll children).toList.length < depth) (offset : Nat) (rest : List Char) :
    ∃ stop, parseElement (depth + 1) ⟨offset, (print (.element name attributes children)).toList ++ rest⟩ =
      .ok (.element name attributes children, ⟨stop, rest⟩) := by
  let behindChildren := ("</" ++ name ++ ">").toList ++ rest
  let behindAttributes := (printAll children).toList ++ behindChildren
  let behindName := (printAttributes attributes).toList ++ '>' :: behindAttributes
  have printed : (print (.element name attributes children)).toList ++ rest = '<' :: (name.toList ++ behindName) := by
    simp [print, behindName, behindAttributes, behindChildren]
  have taken : (name.toList ++ behindName).takeWhile Text.isTagPart = name.toList :=
    takeWhile_tagName named (parted_printAttributes attributes _)
  have filled : name.toList.isEmpty = false := List.isEmpty_eq_false_iff.2 named.nonempty
  have noSlash (offset : Nat) : startsWith ⟨offset, name.toList ++ behindName⟩ "/" = false := by
    obtain ⟨c, tail, same⟩ := List.exists_cons_of_ne_nil named.nonempty
    rw [same]
    refine startsWith_of_ne rfl ?_ _
    rintro rfl
    exact absurd (named.parts '/' (by rw [same]; exact List.mem_cons_self ..)) (by decide)
  obtain ⟨tagged, parsedAttributes⟩ := parseAttributes_print written closed ((name.toList ++ behindName).length + 1)
    (by simp only [behindName, List.length_append]; omega) (offset + ('<').utf8Size + Text.byteSize name.toList) behindAttributes
  obtain ⟨begun, opened⟩ := eat_append ">" tagged behindAttributes
  obtain ⟨ended, parsed⟩ := rereads depth (.tag name offset) behindChildren begun ⟨rest, rfl⟩ enough
  obtain ⟨stop, ate⟩ := eat_append ("</" ++ name ++ ">") ended rest
  refine ⟨stop, ?_⟩
  rw [printed, parseElement]
  simp only [drop_one, noSlash, taken, filled, drop_append, String.ofList_toList]
  exact bind_of_ok parsedAttributes (bind_of_ok opened (bind_of_ok parsed (bind_of_ok ate rfl)))

theorem rereads_element {name : String} {attributes : List Attribute} {children : List Markup} (named : TagName name)
    (written : ∀ attr ∈ attributes, Written Reprinted attr)
    (closed : ∀ flag, attributes.getLast? = some (.flag flag) → flag.toList.getLast? ≠ some '/') (rereads : Rereads children)
    (more : Rereads nodes) : Rereads (.element name attributes children :: nodes) := by
  have start (rest : List Char) : ∃ c tail, Text.isTagPart c = true ∧
      (print (.element name attributes children)).toList ++ rest = '<' :: c :: tail := by
    obtain ⟨c, tail, same⟩ := List.exists_cons_of_ne_nil named.nonempty
    exact ⟨c, tail ++ ((printAttributes attributes).toList ++ '>' :: ((printAll children).toList ++ '<' :: '/' :: (name.toList ++ '>' :: rest))),
      named.parts c (by rw [same]; exact List.mem_cons_self ..), by simp [print, same]⟩
  refine rereads_cons (fun rest => ?_) (fun depth rest offset follows enough => ?_) more
  · obtain ⟨c, tail, isPart, same⟩ := start rest
    have noSlash : c ≠ '/' := by
      rintro rfl
      cases isPart
    rw [same]
    refine ⟨rfl, visible_cons (by decide) _, startsWith_of_ne rfl (by decide) _, ?_⟩
    simp [Text.startsWith, List.isPrefixOf, noSlash.symm]
  · have long : (printAll children).toList.length + 1 ≤ (print (.element name attributes children)).toList.length := by
      simp only [print, String.toList_append, List.length_append]
      have : 0 < "<".toList.length := by decide
      omega
    obtain ⟨depth, rfl⟩ := Nat.exists_eq_succ_of_ne_zero (show depth ≠ 0 by omega)
    obtain ⟨stop, parsed⟩ := parseElement_print named written closed rereads depth (by omega) offset rest
    obtain ⟨c, tail, _, same⟩ := start rest
    refine ⟨stop, ?_⟩
    rw [parseNode, if_pos (by rw [same]; exact startsWith_append "<")]
    exact bind_of_ok parsed rfl

/-- By induction on the siblings, each of which is read back in front of the others. -/
theorem rereads_of_laid (laid : Laid Reprinted True nodes) : Rereads nodes := by
  induction laid with
  | nil => exact rereads_nil
  | element named written closed _ _ ih more => exact rereads_element named written (closed trivial) ih more
  | text plain apart noBrace _ more => exact rereads_text plain apart (noBrace trivial) more
  | expression reprinted _ more => exact rereads_expression reprinted more
  | conditional reprinted tests _ _ _ noElse laidRest body bodies otherwise more =>
    exact rereads_conditional reprinted tests body bodies otherwise
      (fun rest follows => follows.apart laidRest (by decide) noElse) more
  | loop item items track _ _ noEmpty laidRest body empty more =>
    exact rereads_loop item items track body empty
      (fun rest follows isEmpty => follows.apart laidRest (by decide) (noEmpty trivial isEmpty)) more

theorem parseWhole_printAll (laid : Laid Reprinted True nodes) : parseWhole (printAll nodes) = .ok nodes := by
  obtain ⟨stop, parsed⟩ := rereads_of_laid laid (8 * ((printAll nodes).toList.length + 1)) .text [] 0 rfl (by omega)
  rw [List.append_nil] at parsed
  exact bind_of_ok parsed rfl

/-- Markup is read back as it was printed, if its expressions are and no two of its parts run
together. -/
theorem parse_printAll {nodes : List Markup} (laid : Laid Reprinted True nodes) (url : String) : parse ⟨printAll nodes, url⟩ = .ok nodes := by
  rw [parse, parseWhole_printAll laid]
  rfl

private def sampleSiblings : List Markup :=
  [.element "p" [.flag "/", .literal "(b" "1 > 0", .property "c" (.identifier "x"), .event "d" .this] [.text "one \x7b"],
    .conditional (.identifier "x") [] [⟨.this, [.text "\x7b @ if "]⟩] [],
    .text "@elsewhere",
    .loop (.identifier "x") .this .this [.expression (.identifier "x")] [],
    .expression .this]

theorem parse_printAll_siblings : Laid Reprinted True sampleSiblings ∧ parse ⟨printAll sampleSiblings, "page"⟩ = .ok sampleSiblings := by
  have name : Reprinted (.identifier "x") := ⟨.identifier ⟨by decide, by decide⟩, by decide +kernel⟩
  have this : Reprinted .this := ⟨.this, by decide +kernel⟩
  have plain : Plain "one \x7b" ∧ Plain "\x7b @ if " ∧ Plain "@elsewhere" := by decide
  have written : ∀ attr ∈ [Attribute.flag "/", .literal "(b" "1 > 0", .property "c" (.identifier "x"), .event "d" .this],
      Written Reprinted attr := by
    simp only [List.forall_mem_cons]
    exact ⟨.flag (by decide), .literal (by decide) rfl rfl (by decide), .property (by decide) name, .event (by decide) this, by simp⟩
  have laid : Laid Reprinted True sampleSiblings := by
    refine .element (by decide) written (fun _ _ same => by cases same) ?_ (.conditional name ?_ .nil ?_ .nil ?_
      (.text plain.2.2 ?_ ?_ (.loop name this this (.expression name .nil) .nil ?_ (.expression this .nil))))
    · exact .text plain.1 (by simp) (by simp) .nil
    · exact List.forall_mem_singleton.2 this
    · exact List.forall_mem_singleton.2 (.text plain.2.1 (by simp) (by simp) .nil)
    · rintro _ _ ⟨rfl, rfl⟩
      decide
    · simp
    · simp
    · simp
  exact ⟨laid, parse_printAll laid "page"⟩

end ReactiveMarkup.Markup
