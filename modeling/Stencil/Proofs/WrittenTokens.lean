import Mathlib.Data.Bool.AllAny
import Stencil.Proofs.Spelling

/-!
# Texts written as tokens

What a text in an argument list is read as, whatever follows it. A text with an integer that no
literal can give is refused. Texts are put together from their parts where what follows a part does
not go on with its last token.
-/

namespace Stencil.Token

/-- A token that the lexer can give: all but the integer whose digits are beyond 64 bits. -/
def Legible (token : Token) : Prop := token ≠ .literal (.int Int64.minValue)

/-- The tokens of a text in front of others: the text is read as them, or refused where one of them
is not legible. -/
structure Written (follows : List Char → Prop) (text : List Char) (tokens : List Token) : Prop where
  read : (∀ t ∈ tokens, t.Legible) → ∀ (indicator : Char) (depth : Nat) (here : Text.Location)
    (rest : List Char), follows rest → ∃ lexemes : List Lexeme, lexemes.map (·.token) = tokens ∧
      scanArguments indicator depth ⟨text ++ rest, here⟩ =
        (scanArguments indicator depth ⟨rest, here.after text⟩).map (lexemes ++ ·)
  refused : (∃ t ∈ tokens, ¬t.Legible) → ∀ (indicator : Char) (depth : Nat)
    (here : Text.Location) (rest : List Char), follows rest →
      ∃ e, scanArguments indicator depth ⟨text ++ rest, here⟩ = .error e

/-- Anything can follow. -/
def Anything (_ : List Char) : Prop := True

/-- No character of a name follows. -/
def EndsName (rest : List Char) : Prop := ∀ c, rest.head? = some c → Text.isNameChar c = false

/-- A character follows that stands behind operands. -/
def EndsOperand (rest : List Char) : Prop :=
  ∃ c more, rest = c :: more ∧ c ∈ [' ', ')', ',', ']', '[', ':']

theorem endsName_of_endsOperand {rest : List Char} (h : EndsOperand rest) : EndsName rest := by
  obtain ⟨c, more, rfl, mem⟩ := h
  rintro d ⟨⟩
  simp only [List.mem_cons, List.not_mem_nil, or_false] at mem
  rcases mem with rfl | rfl | rfl | rfl | rfl | rfl <;> decide

namespace Written

variable {follows follows' : List Char → Prop} {text more : List Char} {tokens others : List Token}

theorem mono (h : Written follows text tokens) (stronger : ∀ rest, follows' rest → follows rest) :
    Written follows' text tokens :=
  ⟨fun legible indicator depth here rest ends =>
      h.read legible indicator depth here rest (stronger rest ends),
    fun bad indicator depth here rest ends =>
      h.refused bad indicator depth here rest (stronger rest ends)⟩

theorem before (h : Written Anything text tokens) : Written follows text tokens :=
  h.mono fun _ _ => trivial

theorem empty : Written Anything [] [] := by
  constructor
  · intro _ indicator depth here rest _
    refine ⟨[], rfl, ?_⟩
    cases read : scanArguments indicator depth ⟨rest, here⟩ <;> simp [read, Except.map]
  · rintro ⟨t, mem, _⟩
    cases mem

/-- One text behind another. -/
theorem append (h : Written follows text tokens) (h' : Written follows' more others)
    (fits : ∀ rest, follows' rest → follows (more ++ rest)) :
    Written follows' (text ++ more) (tokens ++ others) := by
  constructor
  · intro legible indicator depth here rest ends
    obtain ⟨first, same, read⟩ := h.read
      (fun t mem => legible t (List.mem_append_left _ mem)) indicator depth here (more ++ rest)
      (fits rest ends)
    obtain ⟨second, same', read'⟩ := h'.read
      (fun t mem => legible t (List.mem_append_right _ mem)) indicator depth (here.after text) rest
      ends
    refine ⟨first ++ second, by rw [List.map_append, same, same'], ?_⟩
    rw [List.append_assoc, read, read', map_map, Text.Location.after_append]
    simp only [List.append_assoc]
  · intro bad indicator depth here rest ends
    rw [List.append_assoc]
    by_cases legible : ∀ t ∈ tokens, t.Legible
    · obtain ⟨first, _, read⟩ := h.read legible indicator depth here (more ++ rest) (fits rest ends)
      have later : ∃ t ∈ others, ¬t.Legible := by
        obtain ⟨t, mem, illegible⟩ := bad
        rcases List.mem_append.mp mem with mem | mem
        · exact absurd (legible t mem) illegible
        · exact ⟨t, mem, illegible⟩
      obtain ⟨e, failed⟩ := h'.refused later indicator depth (here.after text) rest ends
      exact ⟨e, by rw [read, failed]; rfl⟩
    · have first : ∃ t ∈ tokens, ¬t.Legible := by simpa using legible
      exact h.refused first indicator depth here (more ++ rest) (fits rest ends)

/-- A text behind another that anything can follow. -/
theorem andThen (h : Written Anything text tokens) (h' : Written follows' more others) :
    Written follows' (text ++ more) (tokens ++ others) :=
  h.append h' fun _ _ => trivial

/-- One legible token. -/
theorem single {token : Token} (legible : token.Legible)
    (read : ∀ (indicator : Char) (depth : Nat) (here : Text.Location) (rest : List Char),
      follows rest → scanArguments indicator depth ⟨text ++ rest, here⟩ =
        (scanArguments indicator depth ⟨rest, here.after text⟩).map (⟨token, here⟩ :: ·)) :
    Written follows text [token] := by
  constructor
  · intro _ indicator depth here rest ends
    exact ⟨[⟨token, here⟩], rfl, read indicator depth here rest ends⟩
  · rintro ⟨t, mem, illegible⟩
    rw [List.mem_singleton.mp mem] at illegible
    exact absurd legible illegible

end Written

/-- Blanks are no token. -/
theorem written_blanks {blanks : List Char} (h : ∀ c ∈ blanks, Text.isBlank c = true) :
    Written Anything blanks [] := by
  constructor
  · intro _ indicator depth here rest _
    refine ⟨[], rfl, ?_⟩
    rw [scanArguments_skip _ _ _ _ h]
    cases scanArguments indicator depth ⟨rest, here.after blanks⟩ <;> simp [Except.map]
  · rintro ⟨t, mem, _⟩
    cases mem

theorem written_blank : Written Anything [' '] [] :=
  written_blanks (List.forall_mem_singleton.mpr (by decide))

/-- A token from what the lexer makes of a text and what follows. -/
theorem written_of_scanOperand {follows : List Char → Prop} {c : Char} {text : List Char}
    {token : Token} (blank : Text.isBlank c = false) (plain : c ∉ ['(', ')', ','])
    (legible : token.Legible)
    (read : ∀ rest, follows rest → scanOperand c (text ++ rest) = .ok (token, text.length)) :
    Written follows (c :: text) [token] := by
  refine .single legible fun indicator depth here rest ends => ?_
  rw [List.cons_append, scanArguments_operand blank plain (read rest ends)]
  simp [Cursor.advance]

theorem written_comma : Written Anything [','] [.comma] := by
  refine .single (by rintro ⟨⟩) fun indicator depth here rest _ => ?_
  exact scanArguments_comma indicator rest here depth

/-- A text between parentheses. -/
theorem Written.parens {text : List Char} {tokens : List Token}
    (h : Written EndsOperand text tokens) :
    Written Anything ('(' :: text ++ [')']) (.openParen :: tokens ++ [.closeParen]) := by
  have ends (rest : List Char) : EndsOperand (')' :: rest) := ⟨')', rest, rfl, by simp⟩
  constructor
  · intro legible indicator depth here rest _
    obtain ⟨inner, same, read⟩ := h.read (fun t mem => legible t (by simp [mem])) indicator
      (depth + 1) (here.next '(') (')' :: rest) (ends rest)
    refine ⟨⟨.openParen, here⟩ :: inner ++ [⟨.closeParen, (here.next '(').after text⟩],
      by simp [same], ?_⟩
    rw [show '(' :: text ++ [')'] ++ rest = '(' :: (text ++ ')' :: rest) by simp,
      scanArguments_open, read, scanArguments_close, scanBehindClose, map_map, map_map]
    simp
  · rintro ⟨t, mem, illegible⟩ indicator depth here rest _
    have inside : t ∈ tokens := by
      simp only [List.cons_append, List.mem_cons, List.mem_append, List.not_mem_nil,
        or_false] at mem
      rcases mem with rfl | mem | rfl
      · exact absurd (by rintro ⟨⟩) illegible
      · exact mem
      · exact absurd (by rintro ⟨⟩) illegible
    obtain ⟨e, failed⟩ := h.refused ⟨t, inside, illegible⟩ indicator (depth + 1) (here.next '(')
      (')' :: rest) (ends rest)
    refine ⟨e, ?_⟩
    rw [show '(' :: text ++ [')'] ++ rest = '(' :: (text ++ ')' :: rest) by simp,
      scanArguments_open, failed]
    rfl

/-- A run of characters of a kind ends before the first one of another kind. -/
theorem takeWhile_run {p : Char → Bool} {run rest : List Char} (inside : ∀ c ∈ run, p c = true)
    (ends : ∀ c, rest.head? = some c → p c = false) : (run ++ rest).takeWhile p = run := by
  rw [List.takeWhile_append_of_pos inside]
  cases rest with
  | nil => simp
  | cons c rest => simp [ends c rfl]

/-- What a name is read as. -/
def ofName (name : String) : Token :=
  match Keyword.ofWord? name with
  | some word => .keyword word
  | none => .ident name

theorem not_inRanges {ranges others : List (Nat × Nat)} {c : Char}
    (apart : ∀ r ∈ ranges, ∀ s ∈ others, r.2 < s.1 ∨ s.2 < r.1)
    (h : Text.inRanges others c = true) : Text.inRanges ranges c = false := by
  rw [← Bool.not_eq_true]
  intro both
  simp only [Text.inRanges, List.any_eq_true, Bool.and_eq_true, decide_eq_true_eq] at both h
  obtain ⟨r, mem, low, high⟩ := both
  obtain ⟨s, mem', low', high'⟩ := h
  have := apart r mem s mem'
  omega

/-- No character of a name is a blank. -/
theorem not_blank_of_nameChar {c : Char} (name : Text.isNameChar c = true) :
    Text.isBlank c = false := by
  unfold Text.isNameChar Text.isLetterOrNumber at name
  unfold Text.isBlank
  split at name
  · rename_i ascii
    rw [if_pos ascii]
    rw [Bool.or_eq_true, beq_iff_eq] at name
    rcases name with word | rfl
    · delta Char.isAlphanum Char.isAlpha Char.isUpper Char.isLower Char.isDigit at word
      simp only [Bool.or_eq_true, Bool.and_eq_true, decide_eq_true_eq, ge_iff_le,
        UInt32.le_iff_toNat_le] at word
      have value : c.toNat = c.val.toNat := rfl
      simp only [Bool.or_eq_false_iff, Bool.and_eq_false_iff, decide_eq_false_iff_not,
        beq_eq_false_iff_ne]
      simp at word
      omega
    · decide
  · rename_i other
    rw [if_neg other]
    rw [Bool.or_eq_true, Bool.or_eq_true, beq_iff_eq] at name
    rcases name with (letter | number) | rfl
    · exact not_inRanges (by decide +kernel) letter
    · exact not_inRanges (by decide +kernel) number
    · exact absurd (by decide) other

/-- The ten digits. -/
theorem digit_cases {c : Char} (h : c.isDigit = true) :
    c ∈ ['0', '1', '2', '3', '4', '5', '6', '7', '8', '9'] := by
  simp only [Char.isDigit, Bool.and_eq_true, decide_eq_true_eq, ge_iff_le,
    UInt32.le_iff_toNat_le] at h
  have value : c.toNat = c.val.toNat := rfl
  simp at h
  have cases : c.toNat = 48 ∨ c.toNat = 49 ∨ c.toNat = 50 ∨ c.toNat = 51 ∨ c.toNat = 52 ∨
      c.toNat = 53 ∨ c.toNat = 54 ∨ c.toNat = 55 ∨ c.toNat = 56 ∨ c.toNat = 57 := by omega
  rw [← Char.ofNat_toNat c]
  rcases cases with h | h | h | h | h | h | h | h | h | h <;> rw [h] <;> decide

/-- What holds of the ten digits holds of a digit. -/
theorem of_digit {p : Char → Prop} [DecidablePred p]
    (all : ['0', '1', '2', '3', '4', '5', '6', '7', '8', '9'].all (fun d => p d) = true) {c : Char}
    (digit : c.isDigit = true) : p c :=
  List.all_iff_forall_prop.mp all c (digit_cases digit)

/-- The start of a name is no other token. -/
theorem nameStart_classes {c : Char} (start : Text.isNameStart c = true) :
    c ∉ ['(', ')', ','] ∧ c ≠ '\x22' ∧ c ≠ '$' ∧ c.isDigit = false := by
  refine ⟨?_, ?_, ?_, ?_⟩
  · intro mem
    simp only [List.mem_cons, List.not_mem_nil, or_false] at mem
    rcases mem with rfl | rfl | rfl <;> exact absurd start (by decide)
  · rintro rfl
    exact absurd start (by decide)
  · rintro rfl
    exact absurd start (by decide)
  · rw [← Bool.not_eq_true]
    intro digit
    have none : Text.isNameStart c = false :=
      of_digit (p := fun d => Text.isNameStart d = false) (by decide) digit
    rw [none] at start
    cases start

theorem written_name {name : String} (h : Text.IsName name) :
    Written EndsName name.toList [ofName name] := by
  obtain ⟨c, more, eq, start, inside⟩ := h
  have blank := not_blank_of_nameChar (Text.isNameChar_of_isNameStart start)
  obtain ⟨plain, quote, dollar, digit⟩ := nameStart_classes start
  have legible : (ofName name).Legible := by
    unfold ofName
    split <;> rintro ⟨⟩
  rw [eq]
  refine written_of_scanOperand blank plain legible fun rest ends => ?_
  unfold scanOperand
  dsimp only
  rw [if_neg quote, if_neg dollar, if_neg (by simp [digit]), if_pos start,
    takeWhile_run inside ends, ← eq, String.ofList_toList]
  rfl

theorem written_ident {name : String} (h : Text.IsName name) (free : Keyword.ofWord? name = none) :
    Written EndsName name.toList [.ident name] := by
  have written := written_name h
  unfold ofName at written
  rwa [free] at written

theorem written_keyword (word : Keyword) : Written EndsName word.word.toList [.keyword word] := by
  have named : Text.IsName word.word := by
    cases word <;> exact ⟨_, _, rfl, by decide, List.all_iff_forall_prop.mp (by decide)⟩
  have written := written_name named
  unfold ofName at written
  rwa [Keyword.ofWord?_word] at written

theorem written_scope {name : String} (h : Text.IsName name) :
    Written EndsName ('$' :: name.toList) [.scope name] := by
  have inside := Text.isNameChar_of_isName h
  obtain ⟨c, more, eq, start, _⟩ := h
  refine written_of_scanOperand (by decide) (by decide) (by rintro ⟨⟩) fun rest ends => ?_
  unfold scanOperand
  dsimp only
  rw [if_neg (by decide), if_pos rfl, takeWhile_run inside ends, String.ofList_toList,
    if_pos (by simp [eq, start])]

/-- A text between quotes. -/
theorem written_text {s : String} (h : Text.Quotable s) :
    Written Anything ('\x22' :: (s.toList ++ ['\x22'])) [.literal (.string s)] := by
  refine written_of_scanOperand (by decide) (by decide) (by rintro ⟨⟩) fun rest _ => ?_
  have content : (s.toList ++ ['\x22'] ++ rest).takeWhile (fun d => d != '\x22' && d != '\n') =
      s.toList := by
    rw [List.append_assoc, List.takeWhile_append_of_pos]
    · simp
    · intro d mem
      simpa using h d mem
  unfold scanOperand
  dsimp only
  rw [if_pos rfl, content, if_pos (by simp)]
  simp [Value.ofText]

/-- The first character of an operator belongs to no other kind of token. -/
theorem symbol_classes {op : Operator} {c : Char} {text : List Char}
    (h : op.symbol.toList = c :: text) : Text.isBlank c = false ∧ c ∉ ['(', ')', ','] ∧
      c ≠ '\x22' ∧ c ≠ '$' ∧ c.isDigit = false ∧ Text.isNameStart c = false := by
  cases op <;> cases h <;> decide

/-- An operator in front of what does not make it longer. -/
theorem written_operator {follows : List Char → Prop} {op : Operator}
    (read : ∀ rest, follows rest → Operator.leading? (op.symbol.toList ++ rest) = some op) :
    Written follows op.symbol.toList [.operator op] := by
  cases eq : op.symbol.toList with
  | nil => exact absurd eq op.symbol_toList_ne_nil
  | cons c text =>
    obtain ⟨blank, plain, quote, dollar, digit, start⟩ := symbol_classes eq
    rw [eq] at read
    refine written_of_scanOperand blank plain (by rintro ⟨⟩) fun rest ends => ?_
    have length := congrArg List.length eq
    rw [List.length_cons, String.length_toList] at length
    unfold scanOperand
    dsimp only
    rw [if_neg quote, if_neg dollar, if_neg (by simp [digit]), if_neg (by simp [start]),
      show c :: (text ++ rest) = c :: text ++ rest from rfl, read rest ends]
    simp [length]

/-- An operator with a blank on both sides. -/
theorem written_spaced {op : Operator} (h : op ∈ Operator.lexable) :
    Written Anything (' ' :: (op.symbol.toList ++ [' '])) [.operator op] := by
  have symbol : Written (fun rest => ∃ more, rest = ' ' :: more) op.symbol.toList
      [.operator op] := by
    refine written_operator ?_
    rintro _ ⟨more, rfl⟩
    cases op with
    | negate | subscript => exact absurd h (by decide)
    | _ => rfl
  have spaced : Written Anything (op.symbol.toList ++ [' ']) ([.operator op] ++ []) :=
    symbol.append written_blank fun rest _ => ⟨rest, rfl⟩
  exact written_blank.andThen spaced

theorem written_bracketOpen : Written Anything ['['] [.operator .bracketOpen] :=
  @written_operator _ .bracketOpen fun _ _ => rfl

theorem written_bracketClose : Written Anything [']'] [.operator .bracketClose] :=
  @written_operator _ .bracketClose fun _ _ => rfl

theorem written_member : Written Anything ['.'] [.operator .member] :=
  @written_operator _ .member fun _ _ => rfl

theorem written_colon : Written Anything [':'] [.operator .colon] :=
  @written_operator _ .colon fun _ _ => rfl

/-- What does not make a sign an assignment or a comparison. -/
def NoEquals (rest : List Char) : Prop := ∃ c more, rest = c :: more ∧ c ≠ '='

/-- The operators that `=` makes longer. -/
theorem written_lone {op : Operator}
    (h : op ∈ [.plus, .minus, .multiply, .divide, .modulo, .not]) :
    Written NoEquals op.symbol.toList [.operator op] := by
  refine written_operator ?_
  rintro _ ⟨c, more, rfl, other⟩
  have equals : ('=' == c) = false := by simpa using Ne.symm other
  simp only [List.mem_cons, List.not_mem_nil, or_false] at h
  rcases h with rfl | rfl | rfl | rfl | rfl | rfl <;>
    simp [Operator.leading?, Operator.lexable, Operator.symbol, List.isPrefixOf, equals]

theorem written_minus : Written NoEquals ['-'] [.operator .minus] :=
  @written_lone .minus (by decide)

theorem written_not : Written NoEquals ['!'] [.operator .not] :=
  @written_lone .not (by decide)

end Stencil.Token
