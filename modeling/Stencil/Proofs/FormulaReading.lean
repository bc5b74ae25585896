import Stencil.Proofs.FormulaRows
import Stencil.Proofs.Formulas
import Stencil.Proofs.PrintedTokens
import Stencil.Proofs.RowReading
import Stencil.Proofs.WrittenNumbers

/-!
# Reading formulas

The tokens of a formula, and that its text is read as them in whatever place: the lexer tells
numerals, operators and parentheses apart without any help of blanks, and only a numeral beyond 64
bits is refused.

The tokens of a formula are read as its row, or refused where a formula in parentheses cannot be
computed. A minus is told from a sign by what stands in front of it.
-/

namespace Stencil

section

open Token

variable {rank : Rank}

namespace Numeral

theorem isDigitOrGap_more (n : Numeral) : ∀ c ∈ n.more, Literal.isDigitOrGap 10 c = true := by
  intro c mem
  rcases n.digits c mem with digit | rfl
  · exact isDigitOrGap_digit digit
  · decide

/-- The lexer finds the number that the digits spell. -/
theorem digitsValue_text (n : Numeral) :
    Literal.digitsValue 10 (Literal.withoutGaps n.text) = n.value := by
  have same : Literal.withoutGaps n.text = n.text.filter Char.isDigit := by
    refine List.filter_congr fun c mem =>
      of_run (p := fun d => (d != '_') = d.isDigit) (by decide) ?_
    rcases List.mem_cons.mp mem with rfl | mem
    · exact isDigitOrGap_digit n.digit
    · exact n.isDigitOrGap_more c mem
  rw [same, digitsValue_digits fun c mem => (List.mem_filter.mp mem).2]
  rfl

end Numeral

namespace Token

theorem written_numeral (n : Numeral) :
    Written EndsNumber n.text [.literal (.int (readInteger n.value))] := by
  have written := written_run n.digit n.isDigitOrGap_more
  rwa [show n.first :: n.more = n.text from rfl, n.digitsValue_text] at written

/-- Blanks do not go on with a number. -/
theorem endsNumber_blanks {blanks rest : List Char} (h : ∀ c ∈ blanks, Text.isBlank c = true)
    (ends : EndsNumber rest) : EndsNumber (blanks ++ rest) := by
  cases blanks with
  | nil => exact ends
  | cons c blanks =>
    rintro d ⟨⟩
    have blank := h c List.mem_cons_self
    refine ⟨?_, ?_⟩
    · rw [← Bool.not_eq_true]
      intro name
      rw [not_blank_of_nameChar name] at blank
      cases blank
    · rintro rfl
      exact absurd blank (by decide)

/-- Blanks in front of a text are no equals sign. -/
theorem noEquals_blanks {blanks text : List Char} (h : ∀ c ∈ blanks, Text.isBlank c = true)
    (first : NoEquals text) : NoEquals (blanks ++ text) := by
  cases blanks with
  | nil => exact first
  | cons c blanks =>
    refine ⟨c, blanks ++ text, rfl, ?_⟩
    rintro rfl
    exact absurd (h _ List.mem_cons_self) (by decide)

theorem noEquals_append {text : List Char} (h : NoEquals text) (rest : List Char) :
    NoEquals (text ++ rest) := by
  obtain ⟨c, more, rfl, other⟩ := h
  exact ⟨c, more ++ rest, rfl, other⟩

/-- An operator between two operands, with blanks on its sides or without. -/
theorem written_joined {left right : List Char} {tokens others : List Token} {op : Operator}
    (hl : Written EndsNumber left tokens) (before behind : Gap)
    (hr : Written EndsNumber right others) (first : NoEquals right)
    (lone : op ∈ Operator.ofArithmetic) :
    Written EndsNumber (left ++ (before.1 ++ op.symbol.toList ++ behind.1 ++ right))
      (tokens ++ .operator op :: others) := by
  simp only [Operator.ofArithmetic, List.mem_cons, List.not_mem_nil, or_false] at lone
  have operand : Written EndsNumber (behind.1 ++ right) others :=
    (written_blanks behind.2).andThen hr
  have operator : Written EndsNumber (op.symbol.toList ++ (behind.1 ++ right))
      (.operator op :: others) := by
    have symbol : Written NoEquals op.symbol.toList [.operator op] :=
      written_lone (by rcases lone with rfl | rfl | rfl | rfl | rfl <;> decide)
    exact symbol.append operand fun rest _ => by
      rw [List.append_assoc]
      exact noEquals_blanks behind.2 (noEquals_append first rest)
  have joined := (written_blanks before.2).andThen operator
  rw [List.nil_append] at joined
  rw [List.append_assoc, List.append_assoc]
  refine hl.append joined fun rest _ => ?_
  rw [List.append_assoc]
  refine endsNumber_blanks before.2 ?_
  rcases lone with rfl | rfl | rfl | rfl | rfl <;> · rintro c ⟨⟩; decide

/-- A text with blanks on both sides. -/
theorem written_between {text : List Char} {tokens : List Token} (before : Gap)
    (h : Written EndsNumber text tokens) (behind : Gap) :
    Written EndsNumber (before.1 ++ text ++ behind.1) tokens := by
  have closed : Written EndsNumber (text ++ behind.1) (tokens ++ []) :=
    h.append (written_blanks behind.2).before fun rest ends => endsNumber_blanks behind.2 ends
  rw [List.append_nil] at closed
  rw [List.append_assoc]
  exact (written_blanks before.2).andThen closed

end Token

namespace Formula

/-- The tokens of a formula. -/
def tokens {rank : Rank} : Formula rank → List Token
  | numeral n => [.literal (.int (readInteger n.value))]
  | group _ inner _ => Token.parenthesized inner.tokens
  | negative _ operand => .operator .minus :: operand.tokens
  | factor only => only.tokens
  | scale left _ op _ right => left.tokens ++ .operator op.operator :: right.tokens
  | term only => only.tokens
  | shift left _ op _ right => left.tokens ++ .operator op.operator :: right.tokens

theorem noEquals_text (e : Formula rank) : NoEquals e.text := by
  induction e with
  | numeral n =>
    refine ⟨n.first, n.more, rfl, ?_⟩
    intro equals
    have digit := n.digit
    rw [equals] at digit
    cases digit
  | group => exact ⟨'(', _, rfl, by decide⟩
  | negative => exact ⟨'-', _, rfl, by decide⟩
  | factor _ ih => exact ih
  | scale _ _ _ _ _ ih => exact noEquals_append ih _
  | term _ ih => exact ih
  | shift _ _ _ _ _ ih => exact noEquals_append ih _

/-- A formula is read as its tokens. -/
theorem written (e : Formula rank) : Written EndsNumber e.text e.tokens := by
  induction e with
  | numeral n => exact written_numeral n
  | group opening inner closing ih =>
    exact ((written_between opening ih closing).mono fun _ =>
      endsNumber_of_endsOperand).parens.before
  | negative gap operand ih =>
    have signed := written_minus.append ((written_blanks gap.2).andThen ih) fun rest _ => by
      rw [List.append_assoc]
      exact noEquals_blanks gap.2 (noEquals_append operand.noEquals_text rest)
    exact signed
  | factor _ ih => exact ih
  | scale left before op behind right ihl ihr =>
    exact written_joined ihl before behind ihr right.noEquals_text op.operator_mem
  | term _ ih => exact ih
  | shift left before op behind right ihl ihr =>
    exact written_joined ihl before behind ihr right.noEquals_text op.operator_mem

/-- A formula starts with a numeral, a parenthesis or a minus. -/
theorem tokens_head (e : Formula rank) : ∃ token more, e.tokens = token :: more ∧
    ∀ word, token ≠ .keyword word := by
  induction e with
  | numeral | group | negative => exact ⟨_, _, rfl, by rintro _ ⟨⟩⟩
  | factor _ ih => exact ih
  | scale _ _ _ _ _ ih =>
    obtain ⟨token, more, eq, other⟩ := ih
    exact ⟨token, _, by rw [tokens, eq, List.cons_append], other⟩
  | term _ ih => exact ih
  | shift _ _ _ _ _ ih =>
    obtain ⟨token, more, eq, other⟩ := ih
    exact ⟨token, _, by rw [tokens, eq, List.cons_append], other⟩

/-- The numerals of a formula that fits are legible. -/
theorem legible_of_fits {e : Formula rank} (h : e.Fits) : AllLegible e.tokens := by
  have operator (op : Operator) : (Token.operator op).Legible := by rintro ⟨⟩
  induction e with
  | numeral n => simpa [tokens, AllLegible] using legible_readInteger.mpr h
  | group _ inner _ ih => exact allLegible_parenthesized.mpr (ih h)
  | negative _ operand ih => exact allLegible_cons.mpr ⟨operator _, ih h.1⟩
  | factor _ ih => exact ih h
  | scale _ _ _ _ _ ihl ihr =>
    exact allLegible_append.mpr ⟨ihl h.1, allLegible_cons.mpr ⟨operator _, ihr h.2.1⟩⟩
  | term _ ih => exact ih h
  | shift _ _ _ _ _ ihl ihr =>
    exact allLegible_append.mpr ⟨ihl h.1, allLegible_cons.mpr ⟨operator _, ihr h.2.1⟩⟩

end Formula

end

/-- The tokens cannot be read where an operand can stand. -/
def Refuses (tokens : List Token) : Prop :=
  ∀ (r : Entities) (tag : String) (mode : FoldMode) (lexemes rest : List Lexeme) (level : Level)
    (outer : List Level), lexemes.map (·.token) = tokens → parenFollows rest = false →
    level.pending = .nothing → level.lastValued = false →
    ∃ fault, readLevels r tag mode (lexemes ++ rest) level outer = .error fault

namespace Refuses

variable {tokens others : List Token} {row : List Expr} {op : Operator}

/-- A sign in front changes nothing. -/
theorem sign (h : Refuses tokens) : Refuses (.operator .minus :: tokens) := by
  intro r tag mode lexemes rest level outer whole follows free valued
  obtain ⟨l, lexemes, rfl, same, same'⟩ := List.map_eq_cons_iff.mp whole
  have behind : (level.grown [.operator .negate]).lastValued = false :=
    Level.lastValued_grown level _
  rw [List.cons_append, readLevels_next same (next_sign free valued _)]
  exact h r tag mode lexemes rest _ outer same' follows free behind

/-- The left side of an operator. -/
theorem left (h : Refuses tokens) (op : Operator) (others : List Token) :
    Refuses (tokens ++ .operator op :: others) := by
  intro r tag mode lexemes rest level outer whole follows free valued
  obtain ⟨front, behind, rfl, left, right⟩ := List.map_eq_append_iff.mp whole
  obtain ⟨o, back, rfl, same, _⟩ := List.map_eq_cons_iff.mp right
  rw [List.append_assoc, List.cons_append]
  exact h r tag mode front _ level outer left (parenFollows_cons same (by rintro ⟨⟩)) free valued

/-- The right side of an operator. -/
theorem right (hl : Gives AnyKind tokens row) (operand : EndsValued row)
    (h : Refuses others) (form : op.form = .binary) :
    Refuses (tokens ++ .operator op :: others) := by
  intro r tag mode lexemes rest level outer whole follows free valued
  obtain ⟨front, behind, rfl, left, right⟩ := List.map_eq_append_iff.mp whole
  obtain ⟨o, back, rfl, same, right⟩ := List.map_eq_cons_iff.mp right
  obtain ⟨before, x, rfl, hx⟩ := operand
  have operand : (level.grown (before ++ [x])).lastValued = true := by
    rw [Level.lastValued_append, hx]
  have free' : (level.grown (before ++ [x])).pending = .nothing := free
  have behind : ((level.grown (before ++ [x])).grown [.operator op]).lastValued = false :=
    Level.lastValued_grown _ _
  rw [List.append_assoc, List.cons_append, hl r tag mode front _ level outer left
      (parenFollows_cons same (by rintro ⟨⟩)) trivial free valued,
    readLevels_next same (next_binary free' operand (.inl form) _)]
  exact h r tag mode back rest _ outer right follows free behind

/-- Parentheses around tokens that are refused. -/
theorem parens (h : Refuses tokens) : Refuses (Token.parenthesized tokens) := by
  intro r tag mode lexemes rest level outer whole follows free _
  obtain ⟨first, behind, rfl, opening, right⟩ := List.map_eq_cons_iff.mp whole
  obtain ⟨inner, back, rfl, inside, right⟩ := List.map_eq_append_iff.mp right
  obtain ⟨final, rfl, closing⟩ := List.map_eq_singleton_iff.mp right
  rw [List.cons_append, readLevels_next opening (next_openParen free _), List.append_assoc,
    List.singleton_append]
  exact h r tag mode inner _ { kind := .group } (level :: outer) inside
    (parenFollows_cons closing (by rintro ⟨⟩)) rfl rfl

/-- Parentheses around a row that cannot be folded. -/
theorem unfoldable {error : FoldError} (h : Gives InGroup tokens row) (nonempty : row ≠ [])
    (failed : Expr.fold .strict row = .error error) : Refuses (Token.parenthesized tokens) := by
  intro r tag mode lexemes rest level outer whole follows free _
  obtain ⟨first, behind, rfl, opening, right⟩ := List.map_eq_cons_iff.mp whole
  obtain ⟨inner, back, rfl, inside, right⟩ := List.map_eq_append_iff.mp right
  obtain ⟨final, rfl, closing⟩ := List.map_eq_singleton_iff.mp right
  have finished : (Level.grown { kind := .group } row).finish mode = .error (.fold error) :=
    finish_of_fold_error rfl nonempty failed
  refine ⟨.malformed tag (.fold error), ?_⟩
  rw [List.cons_append, readLevels_next opening (next_openParen free _), List.append_assoc,
    List.singleton_append, h r tag mode inner _ { kind := .group } (level :: outer) inside
      (parenFollows_cons closing (by rintro ⟨⟩)) rfl rfl rfl]
  exact readLevels_close_error closing rfl finished

end Refuses

/-- The tokens are read as a row, or refused where there is none. -/
def Reads (tokens : List Token) : Option (List Expr) → Prop
  | some row => Gives AnyKind tokens row
  | none => Refuses tokens

namespace Reads

variable {tokens others : List Token} {made other : Option (List Expr)} {op : Operator}

theorem sign (h : Reads tokens made) :
    Reads (.operator .minus :: tokens) (made.map (.operator .negate :: ·)) := by
  cases made with
  | none => exact Refuses.sign h
  | some row => exact Gives.sign h

theorem join (hl : Reads tokens made) (operand : ∀ row, made = some row → EndsValued row)
    (hr : Reads others other) (form : op.form = .binary) :
    Reads (tokens ++ .operator op :: others) (Expr.joined made op other) := by
  cases made with
  | none => exact Refuses.left hl op others
  | some row =>
    have left : Gives AnyKind tokens row := hl
    cases other with
    | none => exact Refuses.right left (operand row rfl) hr form
    | some more => exact left.binary (operand row rfl) hr (.inl form)

/-- Parentheses around a row that is folded to an integer or not at all. -/
theorem parens {row : List Expr} {i : Option Int64} (h : Gives AnyKind tokens row)
    (nonempty : row ≠ [])
    (folded : (∀ n, i = some n → Expr.fold .strict row = .ok (.value (.int n))) ∧
      (i = none → ∃ error, Expr.fold .strict row = .error error)) :
    Reads (Token.parenthesized tokens) (Expr.single i) := by
  cases i with
  | none =>
    obtain ⟨error, failed⟩ := folded.2 rfl
    exact Refuses.unfoldable h.mono nonempty failed
  | some n => exact h.mono.parens (folded.1 n rfl)

end Reads

namespace Formula

open Token

variable {rank : Rank}

/-- A formula with legible numerals is read as its row. -/
theorem reads {e : Formula rank} (legible : AllLegible e.tokens) :
    Reads e.tokens (e.row .read) := by
  induction e with
  | numeral n =>
    have less : n.value < 2 ^ 63 :=
      legible_readInteger.mp (legible _ List.mem_cons_self)
    have found : Value.int64? (n.value : Int) = some (readInteger n.value) := by
      rw [readInteger, int64?_natCast less]
      rfl
    rw [row, computed?, found]
    exact Gives.literal _
  | group opening inner closing ih =>
    have inside := ih (allLegible_parenthesized.mp legible)
    show Reads (parenthesized inner.tokens) (Expr.single inner.computed?)
    cases made : inner.row .read with
    | none =>
      rw [made] at inside
      rw [computed?_eq_none made]
      exact Refuses.parens inside
    | some row =>
      rw [made] at inside
      obtain ⟨before, x, rfl, _⟩ := endsValued_row made
      exact Reads.parens inside (by simp) (fold_row made .strict)
  | negative _ operand ih => exact (ih (allLegible_cons.mp legible).2).sign
  | factor _ ih => exact ih legible
  | scale left _ op _ right ihl ihr =>
    obtain ⟨hl, behind⟩ := allLegible_append.mp legible
    exact (ihl hl).join (fun _ => endsValued_row) (ihr (allLegible_cons.mp behind).2)
      (by cases op <;> rfl)
  | term _ ih => exact ih legible
  | shift left _ op _ right ihl ihr =>
    obtain ⟨hl, behind⟩ := allLegible_append.mp legible
    exact (ihl hl).join (fun _ => endsValued_row) (ihr (allLegible_cons.mp behind).2)
      (by cases op <;> rfl)

end Formula

end Stencil
