import Mathlib.Data.List.Basic
import Mathlib.Data.List.Find
import Stencil.Proofs.LexerStates

/-!
# Argument lists in front of anything

No token but a text literal goes on over a closing parenthesis, and a text literal ends by itself.
So an argument list that is scanned up to the parenthesis at its end is scanned in the same way
whatever follows it.
-/

namespace Stencil

/-- The characters at the front that satisfy a test are not more where another follows. -/
theorem takeWhile_append_stop {p : Char → Bool} {c : Char} (stops : p c = false)
    (text rest : List Char) : (text ++ c :: rest).takeWhile p = text.takeWhile p := by
  induction text with
  | nil => simp [stops]
  | cons d text ih => simp [List.takeWhile_cons, ih]

theorem dropWhile_append_stop {p : Char → Bool} {c : Char} (stops : p c = false)
    (text rest : List Char) :
    (text ++ c :: rest).dropWhile p = text.dropWhile p ++ c :: rest := by
  induction text with
  | nil => simp [stops]
  | cons d text ih =>
    rw [List.cons_append, List.dropWhile_cons, List.dropWhile_cons]
    split
    · exact ih
    · rfl

/-- Where a run ends inside of a text, it ends there in front of anything, and the same character
ends it. -/
theorem run_of_inside {p : Char → Bool} {text : List Char}
    (inside : (text.takeWhile p).length < text.length) (rest : List Char) :
    (text ++ rest).takeWhile p = text.takeWhile p ∧
      ((text ++ rest).drop (text.takeWhile p).length).head? =
        (text.drop (text.takeWhile p).length).head? := by
  have behind : text.drop (text.takeWhile p).length ≠ [] :=
    List.ne_nil_of_length_pos (by rw [List.length_drop]; omega)
  constructor
  · rw [List.takeWhile_append, if_neg (Nat.ne_of_lt inside)]
  · rw [List.drop_append_of_le_length inside.le, List.head?_append_of_ne_nil _ behind]

/-- A run that does not end inside of a text goes on behind it. -/
theorem takeWhile_of_whole {p : Char → Bool} {text : List Char}
    (whole : ¬(text.takeWhile p).length < text.length) (rest : List Char) :
    (text ++ rest).takeWhile p = text ++ rest.takeWhile p := by
  have all : (text.takeWhile p).length = text.length :=
    Nat.le_antisymm (List.takeWhile_prefix p).length_le (Nat.le_of_not_lt whole)
  rw [List.takeWhile_append, if_pos all]

/-- A run that would go on over a parenthesis but is ended by a character ends before the
parenthesis. -/
theorem run_of_closed {p : Char → Bool} {text : List Char} {c : Char} (goesOn : p ')' = true)
    (closed : ((text ++ [')']).drop ((text ++ [')']).takeWhile p).length).head? = some c) :
    (text.takeWhile p).length < text.length := by
  by_contra whole
  rw [takeWhile_of_whole whole, List.takeWhile_cons_of_pos goesOn, List.takeWhile_nil,
    List.drop_length] at closed
  cases closed

namespace Literal

/-- The digits of every base can stand in names. -/
theorem isNameChar_of_isDigit {radix : Nat} {c : Char} (h : isDigit radix c = true) :
    Text.isNameChar c = true := by
  have code : 48 ≤ c.toNat ∧ c.toNat ≤ 57 ∨ 97 ≤ c.toNat ∧ c.toNat ≤ 102 ∨
      65 ≤ c.toNat ∧ c.toNat ≤ 70 := by
    unfold isDigit digitValue? at h
    split at h
    · rename_i range
      exact .inl range
    · split at h
      · rename_i range
        exact .inr (.inl range)
      · split at h
        · rename_i range
          exact .inr (.inr range)
        · cases h
  have inNames : ∀ n < 128, (48 ≤ n ∧ n ≤ 57 ∨ 97 ≤ n ∧ n ≤ 102 ∨ 65 ≤ n ∧ n ≤ 70) →
      Text.isNameChar (Char.ofNat n) = true := by decide +kernel
  rw [← Char.ofNat_toNat c]
  exact inNames c.toNat (by omega) code

section Ends

variable {stop : Char} {rest : List Char} (name : Text.isNameChar stop = false)
  (point : stop = '.' → ∀ d, rest.head? = some d → Text.isNameChar d = false)

include name

theorem radixOf_append (text rest : List Char) : radixOf (text ++ stop :: rest) = radixOf text := by
  have other {c : Char} (inName : Text.isNameChar c = true) : stop ≠ c := by
    rintro rfl
    rw [name] at inName
    cases inName
  have zero : stop ≠ '0' := other (by decide)
  have binary : stop ≠ 'b' := other (by decide)
  have octal : stop ≠ 'o' := other (by decide)
  have hexadecimal : stop ≠ 'x' := other (by decide)
  rcases text with _ | ⟨c, _ | ⟨d, text⟩⟩
  · unfold radixOf
    split <;> simp_all
  · unfold radixOf
    split <;> simp_all
  · unfold radixOf
    split <;> simp_all

theorem not_isDigit (radix : Nat) : isDigit radix stop = false := by
  rw [← Bool.not_eq_true]
  intro digit
  rw [isNameChar_of_isDigit digit] at name
  cases name

theorem not_isDigitOrGap (radix : Nat) : isDigitOrGap radix stop = false := by
  rw [isDigitOrGap, not_isDigit name, Bool.false_or, beq_eq_false_iff_ne]
  rintro rfl
  exact absurd name (by decide)

include point

theorem fractionOf_append (radix : Nat) (text : List Char) :
    fractionOf radix (text ++ stop :: rest) = fractionOf radix text := by
  rcases text with _ | ⟨c, _ | ⟨d, text⟩⟩
  · have alone : fractionOf radix [] = none := rfl
    rw [alone, List.nil_append]
    unfold fractionOf
    split
    · rename_i d more eq
      cases eq
      rw [not_isDigit (point rfl d rfl), if_neg (by simp)]
    · rfl
  · have alone : fractionOf radix [c] = none := by
      unfold fractionOf
      split <;> simp_all
    rw [alone]
    unfold fractionOf
    split
    · rename_i eq
      cases eq
      rw [not_isDigit name, if_neg (by simp)]
    · rfl
  · by_cases dot : c = '.'
    · subst dot
      have same := takeWhile_append_stop (not_isDigitOrGap name radix) (d :: text) rest
      simp only [List.cons_append] at same
      simp only [List.cons_append, fractionOf, same]
    · unfold fractionOf
      split <;> simp_all

end Ends

theorem sign_le_length (text : List Char) : (radixOf text).2 ≤ text.length := by
  unfold radixOf
  split <;> simp

theorem fraction_le_length (radix : Nat) (text : List Char) :
    ((fractionOf radix text).map (·.length + 1)).getD 0 ≤ text.length := by
  unfold fractionOf
  split
  · rename_i c rest
    split
    · exact Nat.succ_le_succ (List.takeWhile_prefix _).length_le
    · exact Nat.zero_le _
  · exact Nat.zero_le _

/-- A number ends before a character that is in no name, and is no point in front of a digit. -/
theorem ofText_append {stop : Char} {rest : List Char} (name : Text.isNameChar stop = false)
    (point : stop = '.' → ∀ d, rest.head? = some d → Text.isNameChar d = false)
    (text : List Char) : Parts.ofText (text ++ stop :: rest) = Parts.ofText text := by
  unfold Parts.ofText
  rw [radixOf_append name]
  have signed := sign_le_length text
  generalize radixOf text = base at signed ⊢
  obtain ⟨radix, sign⟩ := base
  dsimp only at signed ⊢
  rw [List.drop_append_of_le_length signed,
    takeWhile_append_stop (not_isDigitOrGap name radix)]
  have whole := (List.takeWhile_prefix (l := text.drop sign) (isDigitOrGap radix)).length_le
  rw [List.drop_append_of_le_length whole, fractionOf_append name point,
    List.drop_append_of_le_length (fraction_le_length radix _), takeWhile_append_stop name]

/-- A number is no longer than its text. -/
theorem length_ofText_le (text : List Char) : (Parts.ofText text).length ≤ text.length := by
  unfold Parts.ofText Parts.length
  have signed := sign_le_length text
  generalize radixOf text = base at signed ⊢
  obtain ⟨radix, sign⟩ := base
  dsimp only at signed ⊢
  have whole := (List.takeWhile_prefix (l := text.drop sign) (isDigitOrGap radix)).length_le
  generalize (text.drop sign).takeWhile (isDigitOrGap radix) = digits at whole ⊢
  have fraction := fraction_le_length radix ((text.drop sign).drop digits.length)
  generalize ((fractionOf radix _).map (·.length + 1)).getD 0 = behind at fraction ⊢
  have trailing := (List.takeWhile_prefix (l := ((text.drop sign).drop digits.length).drop behind)
    Text.isNameChar).length_le
  simp only [List.length_drop] at whole fraction trailing
  omega

end Literal

namespace Operator

/-- A symbol ends before a character that is in none. -/
theorem leading?_append {stop : Char} (free : ∀ op ∈ lexable, stop ∉ op.symbol.toList)
    (text rest : List Char) : leading? (text ++ stop :: rest) = leading? text := by
  refine List.find?_congr fun op known => ?_
  have free := free op known
  generalize op.symbol.toList = symbol at free
  induction symbol generalizing text with
  | nil => simp
  | cons c symbol ih =>
    cases text with
    | nil =>
      have differs : (c == stop) = false := by
        refine beq_eq_false_iff_ne.mpr ?_
        rintro rfl
        exact free List.mem_cons_self
      rw [List.nil_append, List.isPrefixOf_cons_cons, differs]
      rfl
    | cons d text =>
      rw [List.cons_append, List.isPrefixOf_cons_cons, List.isPrefixOf_cons_cons,
        ih text fun mem => free (.tail _ mem)]

theorem length_leading_le {text : List Char} {op : Operator} (h : leading? text = some op) :
    op.symbol.length ≤ text.length := by
  have fits := List.find?_some h
  have le := (List.isPrefixOf_iff_prefix.mp fits).length_le
  rwa [String.length_toList] at le

end Operator

namespace Token

section Operands

variable {c : Char} {text : List Char} {token : Token} {extra : Nat}

/-- A token that ends before a character that is in no name does not depend on what follows this
character, if it is no operator that does. -/
theorem scanOperand_of_inside {stop : Char} (name : Text.isNameChar stop = false)
    {behind rest : List Char}
    (points : ∀ more ∈ [behind, rest], stop = '.' → ∀ d, more.head? = some d →
      Text.isNameChar d = false)
    (operator : Operator.leading? (c :: (text ++ stop :: rest)) =
      Operator.leading? (c :: (text ++ stop :: behind)))
    (inside : extra ≤ text.length)
    (read : scanOperand c (text ++ stop :: behind) = .ok (token, extra)) :
    scanOperand c (text ++ stop :: rest) = .ok (token, extra) := by
  have number (more : List Char) (among : more ∈ [behind, rest]) :
      Literal.Parts.ofText (c :: (text ++ stop :: more)) = Literal.Parts.ofText (c :: text) :=
    Literal.ofText_append name (points more among) (c :: text)
  have first (more : List Char) : (text ++ stop :: more).head? = (text ++ [stop]).head? := by
    cases text <;> rfl
  unfold scanOperand at read ⊢
  simp only [takeWhile_append_stop name, number _ (.head _), number _ (.tail _ (.head _)), operator,
    first] at read ⊢
  split at read
  · rename_i quote
    rw [if_pos quote]
    split at read
    · rename_i closed
      cases read
      have short : (text.takeWhile fun d => d != '\x22' && d != '\n').length < text.length := by
        by_contra whole
        rw [takeWhile_of_whole whole, List.length_append] at inside
        omega
      have run := run_of_inside short
      rw [(run _).1, (run _).2] at closed
      rw [(run _).1, (run _).2, (run _).1]
      exact if_pos closed
    · cases read
  · rename_i notQuote
    rw [if_neg notQuote]
    split at read
    · rename_i dollar
      rw [if_pos dollar]
      exact read
    · rename_i notDollar
      rw [if_neg notDollar]
      split at read
      · rename_i digit
        rw [if_pos digit]
        split at read
        · exact read
        · cases read
      · rename_i notDigit
        rw [if_neg notDigit]
        exact read

/-- A token in front of a closing parenthesis does not take it. -/
theorem length_scanOperand_le (read : scanOperand c (text ++ [')']) = .ok (token, extra)) :
    extra ≤ text.length := by
  have name : Text.isNameChar ')' = false := by decide
  have number : Literal.Parts.ofText (c :: (text ++ [')'])) = Literal.Parts.ofText (c :: text) :=
    Literal.ofText_append name (by rintro ⟨⟩) (c :: text)
  have operator : Operator.leading? (c :: (text ++ [')'])) = Operator.leading? (c :: text) :=
    Operator.leading?_append (by decide) (c :: text) []
  have word : (text.takeWhile Text.isNameChar).length ≤ text.length :=
    (List.takeWhile_prefix _).length_le
  unfold scanOperand at read
  simp only [takeWhile_append_stop name, number, operator] at read
  split at read
  · split at read
    · rename_i closed
      have inside := run_of_closed (by decide) closed
      rw [(run_of_inside inside _).1] at read
      cases read
      exact inside
    · cases read
  · split at read
    · split at read
      · cases read
        exact word
      · cases read
    · split at read
      · have bound := Literal.length_ofText_le (c :: text)
        split at read
        · cases read
          exact Nat.sub_le_of_le_add bound
        · cases read
      · split at read
        · cases read
          exact word
        · split at read
          · rename_i op found
            cases read
            exact Nat.sub_le_of_le_add (Operator.length_leading_le found)
          · cases read

/-- A token ends before a closing parenthesis, unless it is a text literal that goes on. -/
theorem scanOperand_append_paren (read : scanOperand c (text ++ [')']) = .ok (token, extra))
    (rest : List Char) : scanOperand c (text ++ ')' :: rest) = .ok (token, extra) := by
  have name : Text.isNameChar ')' = false := by decide
  have operator (more : List Char) :
      Operator.leading? (c :: (text ++ ')' :: more)) = Operator.leading? (c :: text) :=
    Operator.leading?_append (by decide) (c :: text) more
  exact scanOperand_of_inside name (fun _ _ => by rintro ⟨⟩)
    ((operator rest).trans (operator []).symm) (length_scanOperand_le read) read

end Operands

variable {indicator : Char}

/-- Text is not without tokens. -/
theorem scanText_ne_nil {c : Char} {text : List Char} {place : Text.Location}
    {tokens : List Lexeme} (h : scanText indicator ⟨c :: text, place⟩ = .ok tokens) :
    tokens ≠ [] := by
  have raw : (scanRaw indicator (c :: text) place).2.rest = [] →
      (scanRaw indicator (c :: text) place).1 ≠ [] := by
    cases text with
    | nil => exact fun _ => List.cons_ne_nil _ _
    | cons d text =>
      unfold scanRaw
      intro whole
      split at whole
      · rw [if_pos ‹_›]
        exact List.cons_ne_nil _ _
      · rw [if_neg ‹_›]
        split at whole
        · cases whole
        · rw [if_neg ‹_›]
          exact List.cons_ne_nil _ _
  rw [scanText_eq] at h
  split at h
  · rename_i found behind eq
    rw [eq] at raw
    cases h
    unfold rawLexeme
    rw [if_neg (by simpa using raw rfl)]
    exact List.cons_ne_nil _ _
  · revert h
    generalize scanTail indicator _ = tail
    intro h
    cases tail with
    | error e => cases h
    | ok more =>
      cases h
      simp

/-- Behind an argument list there are tokens unless there is no text. -/
theorem eq_nil_of_scanClosed {text : List Char} {place : Text.Location}
    (h : scanClosed indicator ⟨text, place⟩ = .ok []) : text = [] := by
  cases text with
  | nil => rfl
  | cons c text =>
    simp only [scanClosed] at h
    split at h
    · obtain ⟨rest, -, eq⟩ := ok_of_map h
      cases eq
    · exact absurd rfl (scanText_ne_nil h)

/-- Where an argument list ends depends on its tokens alone. -/
theorem behindList?_of_same {depth : Nat} {tokens lexemes : List Lexeme}
    (same : lexemes.map (·.token) = tokens.map (·.token))
    (ends : behindList? depth tokens = some []) : behindList? depth lexemes = some [] := by
  induction tokens generalizing depth lexemes with
  | nil => cases ends
  | cons first tokens ih =>
    obtain ⟨token, place⟩ := first
    cases lexemes with
    | nil => cases same
    | cons lexeme lexemes =>
      obtain ⟨token', here⟩ := lexeme
      obtain ⟨rfl, behind⟩ := List.cons.inj same
      dsimp only at ends
      unfold behindList? at ends ⊢
      generalize token'.stateBehind depth = state at ends ⊢
      cases state with
      | arguments depth => exact ih behind ends
      | _ =>
        cases ends
        rw [List.map_nil, List.map_eq_nil_iff] at behind
        rw [behind]

/-- A text is scanned to the same tokens, as the rest of an argument list up to the parenthesis that
closes it, wherever it stands, in front of anything and inside of any other lists. -/
def ClosesAs (indicator : Char) (depth : Nat) (text : List Char) (tokens : List Token) : Prop :=
  ∀ here, ∃ lexemes : List Lexeme, lexemes.map (·.token) = tokens ∧
    ∀ around rest, scanArguments indicator (depth + around) ⟨text ++ ')' :: rest, here⟩ =
      (scanBehindClose indicator around ⟨rest, here.after (text ++ [')'])⟩).map (lexemes ++ ·)

namespace ClosesAs

variable {depth : Nat} {text : List Char} {tokens : List Token}

/-- A blank may stand in front. -/
theorem skip {c : Char} (blank : Text.isBlank c = true) (h : ClosesAs indicator depth text tokens) :
    ClosesAs indicator depth (c :: text) tokens := by
  intro here
  obtain ⟨lexemes, same, reads⟩ := h (here.next c)
  refine ⟨lexemes, same, fun around rest => ?_⟩
  rw [List.cons_append, scanArguments_blank _ _ _ _ blank, reads]
  rfl

/-- The parenthesis that closes the list. -/
theorem close : ClosesAs indicator 0 [] [.closeParen] := by
  intro here
  refine ⟨[⟨.closeParen, here⟩], rfl, fun around rest => ?_⟩
  rw [Nat.zero_add]
  exact scanArguments_close indicator rest here around

/-- A token in front of the rest of the list. -/
theorem cons {c : Char} {extra depth' : Nat} {token : Token} (fits : extra ≤ text.length)
    (scans : ∀ here around rest,
      scanArguments indicator (depth + around) ⟨c :: (text ++ ')' :: rest), here⟩ =
      (scanArguments indicator (depth' + around)
        (Cursor.advance ⟨text ++ ')' :: rest, here.next c⟩ extra)).map (⟨token, here⟩ :: ·))
    (h : ClosesAs indicator depth' (text.drop extra) tokens) :
    ClosesAs indicator depth (c :: text) (token :: tokens) := by
  intro here
  obtain ⟨lexemes, same, reads⟩ := h ((here.next c).after (text.take extra))
  refine ⟨⟨token, here⟩ :: lexemes, ?_, fun around rest => ?_⟩
  · rw [List.map_cons, same]
  · rw [List.cons_append, scans, Cursor.advance_append fits, reads, map_map,
      ← Text.Location.after_append, ← List.append_assoc, List.take_append_drop]
    rfl

end ClosesAs

/-- In front of a closing parenthesis there is nothing, or a character of the text before it. -/
theorem front_of_append_paren {c : Char} {text rest : List Char} (whole : c :: rest = text ++ [')']) :
    (text = [] ∧ c = ')' ∧ rest = []) ∨ ∃ more, text = c :: more ∧ rest = more ++ [')'] := by
  rcases List.cons_eq_append_iff.mp whole with ⟨rfl, last⟩ | inside
  · cases last
    exact .inl ⟨rfl, rfl, rfl⟩
  · exact .inr inside

/-- What is read up to the parenthesis at the end of the list is read in the same way from any place
on, in front of anything and inside of other lists. -/
theorem Scans.closesAs {state : LexState} {cursor : Cursor} {read : Except LexError (List Lexeme)}
    {depth : Nat} {text : List Char} {tokens : List Lexeme} (h : Scans indicator state cursor read)
    (inside : state = .arguments depth) (whole : cursor.rest = text ++ [')'])
    (ok : read = .ok tokens) (ends : behindList? depth tokens = some []) :
    ClosesAs indicator depth text (tokens.map (·.token)) := by
  induction h generalizing depth text tokens with
  | ends =>
    cases ok
    cases ends
  | blank blank _ ih =>
    rcases front_of_append_paren whole with ⟨-, rfl, -⟩ | ⟨more, rfl, parts⟩
    · exact absurd blank (by decide)
    · exact .skip blank (ih inside parts ok ends)
  | openParen _ ih =>
    cases inside
    obtain ⟨tokens, behind, rfl⟩ := ok_of_map ok
    rcases front_of_append_paren whole with ⟨-, paren, -⟩ | ⟨more, rfl, parts⟩
    · cases paren
    · refine .cons (Nat.zero_le _) (fun here around rest => ?_) (ih rfl parts behind ends)
      rw [scanArguments_open, Nat.add_right_comm]
      rfl
  | @closeParen depth _ _ _ scans ih =>
    cases inside
    obtain ⟨tokens, behind, rfl⟩ := ok_of_map ok
    rcases front_of_append_paren whole with ⟨-, -, rfl⟩ | ⟨more, rfl, parts⟩
    · -- another list is open at the end of the text
      cases scans
      cases behind
      cases ends
    · refine .cons (Nat.zero_le _) (fun here around rest => ?_) (ih rfl parts behind ends)
      rw [scanArguments_close, Nat.add_right_comm]
      rfl
  | closeList _ _ =>
    cases inside
    obtain ⟨tokens, behind, rfl⟩ := ok_of_map ok
    cases ends
    obtain rfl := eq_nil_of_scanClosed behind
    rcases front_of_append_paren whole with ⟨rfl, -, -⟩ | ⟨more, -, parts⟩
    · exact .close
    · simp at parts
  | comma _ ih =>
    cases inside
    obtain ⟨tokens, behind, rfl⟩ := ok_of_map ok
    rcases front_of_append_paren whole with ⟨-, comma, -⟩ | ⟨more, rfl, parts⟩
    · cases comma
    · refine .cons (Nat.zero_le _) (fun here around rest => ?_) (ih rfl parts behind ends)
      rw [scanArguments_comma]
      rfl
  | @operand depth _ _ _ _ extra _ first plain taken _ ih =>
    cases inside
    obtain ⟨tokens, behind, rfl⟩ := ok_of_map ok
    obtain ⟨-, same⟩ := stands_of_isOperand ⟨_, _, _, taken⟩ depth
    simp only [behindList?, same] at ends
    rcases front_of_append_paren whole with ⟨-, rfl, -⟩ | ⟨more, rfl, rfl⟩
    · exact absurd plain (by decide)
    · have fits := length_scanOperand_le taken
      have parts : (more ++ [')']).drop extra = more.drop extra ++ [')'] :=
        List.drop_append_of_le_length fits
      refine .cons fits (fun here around rest => ?_) (ih rfl parts behind ends)
      exact scanArguments_operand first plain (scanOperand_append_paren taken rest) _ _ _
  | fault => cases ok
  | _ => cases inside

/-- An argument list that is read up to the parenthesis at its end is read in the same way from any
place on, in front of anything and inside of other lists. -/
theorem closesAs_of_scanArguments {depth : Nat} {text : List Char} {place : Text.Location}
    {tokens : List Lexeme}
    (read : scanArguments indicator depth ⟨text ++ [')'], place⟩ = .ok tokens)
    (ends : behindList? depth tokens = some []) :
    ClosesAs indicator depth text (tokens.map (·.token)) :=
  (scans_arguments indicator depth _).closesAs rfl rfl read ends

end Token

end Stencil
