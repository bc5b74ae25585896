import Mathlib.Data.Bool.AllAny
import Stencil.Expr.Printer
import Stencil.Proofs.PrintedTokens

/-!
# Printed expressions as tokens

The text of an expression is read as its tokens. Behind it stands a character that no operand goes
on with.
-/

namespace Stencil

open Token

namespace Token

variable {follows : List Char → Prop} {text more : List Char} {tokens others : List Token}

theorem endsOperand_of_mem {c : Char} (mem : c ∈ [' ', ')', ',', ']', '[', ':'])
    (rest : List Char) : EndsOperand (c :: rest) :=
  ⟨c, rest, rfl, mem⟩

/-- A text between brackets. -/
theorem Written.brackets (h : Written EndsOperand text tokens) :
    Written Anything ('[' :: text ++ [']'])
      (.operator .bracketOpen :: tokens ++ [.operator .bracketClose]) :=
  written_bracketOpen.andThen
    (h.append written_bracketClose fun rest _ => endsOperand_of_mem (by simp) rest)

/-- Items with commas between them. -/
theorem written_intercalate {texts : List (List Char)} {items : List (List Token)}
    (h : List.Forall₂ (Written EndsOperand) texts items) :
    Written EndsOperand ([',', ' '].intercalate texts) ([.comma].intercalate items) := by
  induction h with
  | nil => exact Written.empty.before
  | @cons text tokens texts items first rest ih =>
    cases rest with
    | nil => simpa using first
    | cons =>
      rw [List.intercalate_cons_cons, List.intercalate_cons_cons]
      have separator : Written Anything [',', ' '] [.comma] := written_comma.andThen written_blank
      exact (first.append separator fun rest _ => endsOperand_of_mem (by simp) _).andThen ih

/-- Items between brackets. -/
theorem written_bracketed {texts : List String} {items : List (List Token)}
    (h : List.Forall₂ (fun text tokens => Written EndsOperand text.toList tokens) texts items) :
    Written Anything ("[" ++ ", ".intercalate texts ++ "]").toList (bracketed items) := by
  have inner : List.Forall₂ (Written EndsOperand) (texts.map String.toList) items :=
    List.forall₂_map_left_iff.mpr h
  have written := (written_intercalate inner).brackets
  rw [String.toList_append, String.toList_append, String.toList_intercalate]
  exact written

/-- The label of an item. -/
theorem written_label {label : Option String}
    (h : ∀ s, label = some s → Text.Quotable s) :
    Written Anything (labelText true label).toList (ofLabel label) := by
  cases label with
  | none => exact Written.empty
  | some s =>
    have colon : Written Anything [':', ' '] [.operator .colon] :=
      written_colon.andThen written_blank
    have written := (written_text (h s rfl)).andThen colon
    have eq : (labelText true (some s)).toList =
        '\x22' :: (s.toList ++ ['\x22']) ++ [':', ' '] := by
      simp [labelText]
    rw [eq]
    exact written

/-- Digits behind a sign. -/
theorem written_sign (h : Written follows text tokens) (first : NoEquals text) :
    Written follows ('-' :: text) (.operator .minus :: tokens) := by
  refine written_minus.append h fun rest _ => ?_
  obtain ⟨c, more, rfl, other⟩ := first
  exact ⟨c, more ++ rest, rfl, other⟩

theorem noEquals_of_isDigit (digits : ∀ c ∈ text, c.isDigit = true) (some : text ≠ [])
    (more : List Char) : NoEquals (text ++ more) := by
  cases text with
  | nil => exact absurd rfl some
  | cons c text =>
    refine ⟨c, text ++ more, rfl, ?_⟩
    rintro rfl
    have digit := digits '=' List.mem_cons_self
    cases digit

theorem toString_of_nonneg {i : Int} (h : 0 ≤ i) :
    (toString i).toList = Nat.toDigits 10 i.toNat := by
  obtain ⟨n, rfl⟩ := Int.eq_ofNat_of_zero_le h
  show (Int.repr _).toList = _
  simp [Int.repr, Nat.repr]

theorem toString_of_neg {i : Int} (h : i < 0) :
    (toString i).toList = '-' :: Nat.toDigits 10 (-i).toNat := by
  obtain ⟨n, rfl⟩ := Int.eq_negSucc_of_lt_zero h
  show (Int.repr _).toList = _
  simp [Int.repr, Int.neg_negSucc, Nat.repr]

theorem written_int (i : Int64) :
    Written EndsOperand (toString i.toInt).toList (ofNumber (.int i)) := by
  have low := i.le_toInt
  have high := i.toInt_lt
  unfold ofNumber Value.unsigned?
  by_cases negative : i.toInt < 0
  · have written := written_natural (n := (-i.toInt).toNat) (by omega)
    rw [Int.toNat_of_nonneg (by omega)] at written
    rw [toString_of_neg negative]
    simp only [if_pos negative]
    refine written_sign written ?_
    have digits : ∀ c ∈ Nat.toDigits 10 (-i.toInt).toNat, c.isDigit = true := fun c mem =>
      Nat.isDigit_of_mem_toDigits (by omega) (by omega) mem
    simpa using noEquals_of_isDigit digits Nat.toDigits_ne_nil []
  · have written := written_natural (n := i.toInt.toNat) (by omega)
    rw [Int.toNat_of_nonneg (by omega), Int64.ofInt_toInt] at written
    rw [toString_of_nonneg (by omega)]
    simp only [if_neg negative]
    exact written

/-- The shortest digits of a positive double are read as the double. -/
theorem written_positive {d : Float} (finite : d.isFinite = true)
    (positive : Double.isNegative d = false) :
    Written EndsOperand (Double.Layout.source.finite d).toList [.literal (.double d)] ∧
      NoEquals (Double.Layout.source.finite d).toList := by
  obtain ⟨whole, fraction, pointed, same⟩ := Double.ofDecimal_source finite positive
  have written := written_decimal pointed
  rw [same] at written
  refine ⟨written, ?_⟩
  rw [pointed.text]
  exact noEquals_of_isDigit (fun c mem => pointed.digits c (List.mem_append_left _ mem))
    pointed.whole _

theorem written_finite {d : Float} (finite : d.isFinite = true) :
    Written EndsOperand (Double.Layout.source.finite d).toList (ofNumber (.double d)) := by
  unfold ofNumber Value.unsigned?
  cases negative : Double.isNegative d with
  | true =>
    have positive : Double.isNegative (-d) = false := by
      rw [Double.isNegative_neg finite, negative]
      rfl
    obtain ⟨written, first⟩ := written_positive (Double.isFinite_neg finite) positive
    rw [Double.source_of_isNegative finite negative]
    simp only [finite, negative, Bool.and_self, if_true]
    exact written_sign written first
  | false =>
    simp only [finite, negative, Bool.and_false, Bool.false_eq_true, if_false]
    exact (written_positive finite negative).1

theorem written_zero : Written EndsOperand ['0', '.', '0'] [.literal (.double 0.0)] := by
  have pointed : Double.Pointed ['0', '.', '0'] ['0'] ['0'] :=
    ⟨rfl, List.all_iff_forall_prop.mp (by decide), by simp, by simp⟩
  have written := written_decimal pointed
  have same : Double.ofDecimal (Nat.ofDigitChars 10 ['0', '0'] 0) (-1) = 0.0 := by rfl
  rw [← same]
  exact written

theorem written_one : Written EndsOperand ['1', '.', '0'] [.literal (.double 1.0)] := by
  have pointed : Double.Pointed ['1', '.', '0'] ['1'] ['0'] :=
    ⟨rfl, List.all_iff_forall_prop.mp (by decide), by simp, by simp⟩
  have written := written_decimal pointed
  have same : Double.ofDecimal (Nat.ofDigitChars 10 ['1', '0'] 0) (-1) = 1.0 := by rfl
  rw [← same]
  exact written

/-- A division between parentheses. -/
theorem written_quotient (h : Written EndsOperand text tokens) :
    Written Anything ('(' :: (text ++ [' ', '/', ' ', '0', '.', '0']) ++ [')'])
      (parenthesized (tokens ++ [.operator .divide, .literal (.double 0.0)])) := by
  have divide : Written Anything [' ', '/', ' '] [.operator .divide] :=
    written_spaced (by decide : Operator.divide ∈ Operator.lexable)
  exact (h.append (divide.andThen written_zero) fun rest _ =>
    endsOperand_of_mem (by simp) _).parens

theorem written_double (d : Float) :
    Written EndsOperand (Double.sourceText d).toList (ofDouble d) := by
  unfold Double.sourceText ofDouble
  split
  · exact (written_quotient written_zero).before
  · rename_i number
    split
    · split
      · have sign : NoEquals ['1', '.', '0'] := ⟨'1', _, rfl, by decide⟩
        exact (written_quotient (written_sign written_one sign)).before
      · exact (written_quotient written_one).before
    · rename_i bounded
      exact written_finite (Value.isFinite_of_bounded number bounded)

end Token

namespace Value

theorem literalItems_eq_map (items : List Value) : literalItems items = items.map literal := by
  induction items with
  | nil => rfl
  | cons v items ih => rw [literalItems, ih, List.map_cons]

theorem literalEntries_eq_map (entries : List (String × Value)) :
    literalEntries entries =
      entries.map fun entry => labelText true (some entry.1) ++ entry.2.literal := by
  induction entries with
  | nil => rfl
  | cons entry entries ih =>
    rw [literalEntries, ih, List.map_cons]
    simp [labelText, String.append_assoc]

theorem forall₂_map {α β γ : Type} {R : β → γ → Prop} {f : α → β} {g : α → γ} {items : List α}
    (h : ∀ item ∈ items, R (f item) (g item)) :
    List.Forall₂ R (items.map f) (items.map g) := by
  rw [List.forall₂_map_left_iff, List.forall₂_map_right_iff, List.forall₂_same]
  exact h

/-- A literal is read as its tokens. -/
theorem written_literal {data : Value} (plain : data.Plain Text.Quotable) :
    Written EndsOperand data.literal.toList data.tokens := by
  induction plain with
  | nil => exact (written_keyword .isNil).mono fun _ => endsName_of_endsOperand
  | bool b =>
    cases b with
    | true => exact (written_keyword .isTrue).mono fun _ => endsName_of_endsOperand
    | false => exact (written_keyword .isFalse).mono fun _ => endsName_of_endsOperand
  | int i => exact written_int i
  | double d => exact written_double d
  | @string s quotable =>
    have eq : (literal (.string s)).toList = '\x22' :: (s.toList ++ ['\x22']) := by
      simp [literal]
    rw [eq]
    exact (written_text quotable).before
  | @array items _ ih =>
    rw [literal, tokens, literalItems_eq_map, tokensItems_eq_map]
    exact (written_bracketed (forall₂_map ih)).before
  | @dictionary entries _ keys _ ih =>
    cases entries with
    | nil =>
      have colon : Written Anything [':', ']'] [.operator .colon, .operator .bracketClose] :=
        written_colon.andThen written_bracketClose
      exact (written_bracketOpen.andThen colon).before
    | cons entry entries =>
      rw [literal, tokens, literalEntries_eq_map, tokensEntries_eq_map]
      · refine (written_bracketed (forall₂_map fun item mem => ?_)).before
        rw [String.toList_append]
        refine (written_label ?_).andThen (ih item mem)
        rintro _ ⟨⟩
        exact keys item mem
      · rintro ⟨⟩
      · rintro ⟨⟩

end Value

namespace Variable

/-- A path is read as its tokens. -/
theorem written_path {path : List String} (words : ∀ name ∈ path, Text.IsWord name) :
    Written EndsName (String.join (path.map ("." ++ ·))).toList (pathTokens path) ∧
      ∀ rest, EndsName rest → EndsName ((String.join (path.map ("." ++ ·))).toList ++ rest) := by
  induction path with
  | nil => exact ⟨Written.empty.before, fun rest ends => ends⟩
  | cons name path ih =>
    obtain ⟨written, ends⟩ := ih fun other mem => words other (.tail _ mem)
    have word := words name List.mem_cons_self
    have step : Written EndsName ('.' :: name.toList) [.operator .member, .ident name] :=
      written_member.andThen (written_ident word.1 word.2)
    have eq : (String.join ((name :: path).map ("." ++ ·))).toList =
        '.' :: name.toList ++ (String.join (path.map ("." ++ ·))).toList := by
      rw [List.map_cons, String.join_cons, String.toList_append, String.toList_append]
      rfl
    rw [eq]
    refine ⟨step.append written ends, fun rest _ => ?_⟩
    rintro c ⟨⟩
    decide

/-- A variable is read as its tokens. -/
theorem Spelled.written {v : Variable} (h : v.Spelled) :
    Written EndsName v.text.toList v.tokens := by
  obtain ⟨path, ends⟩ := written_path h.path
  have tail : Written EndsName (v.member.toList ++ (String.join (v.path.map ("." ++ ·))).toList)
      (.ident v.member :: pathTokens v.path) :=
    (written_ident h.member.1 h.member.2).append path ends
  have point (rest : List Char) : EndsName (['.'] ++ rest) := by
    rintro c ⟨⟩
    decide
  unfold text tokens
  cases found : v.scope with
  | none =>
    simp only [String.toList_append, List.nil_append]
    exact tail
  | some scope =>
    dsimp only
    split
    · have own : Written Anything (ownScope ++ ".").toList [.keyword .own, .operator .member] :=
        (written_keyword .own).append written_member fun rest _ => point rest
      rw [String.toList_append, String.toList_append, List.append_assoc]
      exact own.andThen tail
    · have name := written_scope (h.scope scope found)
      have named : Written Anything ("$" ++ scope ++ ".").toList
          [.scope scope, .operator .member] := by
        rw [String.toList_append, String.toList_append]
        exact name.append written_member fun rest _ => point rest
      rw [String.toList_append, String.toList_append, List.append_assoc]
      exact named.andThen tail

end Variable

namespace Token

theorem noEquals_of_isName {s : String} (h : Text.IsName s) (more : List Char) :
    NoEquals (s.toList ++ more) := by
  obtain ⟨c, rest, eq, start, _⟩ := h
  refine ⟨c, rest ++ more, by rw [eq, List.cons_append], ?_⟩
  rintro rfl
  have other : Text.isNameStart '=' = false := by decide
  rw [other] at start
  cases start

theorem noEquals_int (i : Int64) : NoEquals (toString i.toInt).toList := by
  have digits (n : Nat) : NoEquals (Nat.toDigits 10 n) := by
    have inside : ∀ c ∈ Nat.toDigits 10 n, c.isDigit = true := fun c mem =>
      Nat.isDigit_of_mem_toDigits (by omega) (by omega) mem
    simpa using noEquals_of_isDigit inside Nat.toDigits_ne_nil []
  by_cases negative : i.toInt < 0
  · rw [toString_of_neg negative]
    exact ⟨'-', _, rfl, by decide⟩
  · rw [toString_of_nonneg (by omega)]
    exact digits _

theorem noEquals_double (d : Float) : NoEquals (Double.sourceText d).toList := by
  unfold Double.sourceText
  split
  · exact ⟨'(', _, rfl, by decide⟩
  · rename_i number
    split
    · split
      · exact ⟨'(', _, rfl, by decide⟩
      · exact ⟨'(', _, rfl, by decide⟩
    · rename_i bounded
      have finite := Value.isFinite_of_bounded number bounded
      cases negative : Double.isNegative d with
      | true =>
        rw [Double.source_of_isNegative finite negative]
        exact ⟨'-', _, rfl, by decide⟩
      | false => exact (written_positive finite negative).2

end Token

theorem Value.noEquals_literal {data : Value} (plain : data.Plain Text.Quotable) :
    NoEquals data.literal.toList := by
  have bracket (text : String) : NoEquals ("[" ++ text ++ "]").toList := by
    rw [String.append_assoc, String.toList_append]
    exact ⟨'[', _, rfl, by decide⟩
  cases plain with
  | nil => exact ⟨'n', _, rfl, by decide⟩
  | bool b => cases b <;> exact ⟨_, _, rfl, by decide⟩
  | int i => exact noEquals_int i
  | double d => exact noEquals_double d
  | string =>
    rw [literal, String.append_assoc, String.toList_append]
    exact ⟨'\x22', _, rfl, by decide⟩
  | array => exact bracket _
  | @dictionary entries =>
    cases entries with
    | nil => exact ⟨'[', _, rfl, by decide⟩
    | cons entry entries =>
      rw [literal]
      · exact bracket _
      · rintro ⟨⟩

namespace Expr

theorem text_binary {op : Operator} (other : op ≠ .subscript) (l r : Expr) :
    (binary op l r).text = "(" ++ l.text ++ " " ++ op.symbol ++ " " ++ r.text ++ ")" := by
  cases op <;> first | rfl | exact absurd rfl other

theorem textItems_eq_map (quotes : Bool) (items : List (Option String × Expr)) :
    textItems quotes items = items.map fun item => labelText quotes item.1 ++ item.2.text := by
  induction items with
  | nil => rfl
  | cons item items ih => rw [textItems, ih, List.map_cons]

/-- The first character of an operand does not make an operator in front of it longer. -/
theorem Settled.noEquals {e : Expr} (h : e.Settled) : NoEquals e.text.toList := by
  have paren (text : String) : NoEquals ("(" ++ text).toList := by
    rw [String.toList_append]
    exact ⟨'(', _, rfl, by decide⟩
  cases h with
  | value plain => exact Value.noEquals_literal plain
  | @var v spelled =>
    rw [text, Variable.text]
    split
    · have named := noEquals_of_isName spelled.member.1
      simpa [String.toList_append] using named _
    · split
      · simp only [String.append_assoc, String.toList_append]
        exact ⟨'s', _, rfl, by decide⟩
      · simp only [String.append_assoc, String.toList_append]
        exact ⟨'$', _, rfl, by decide⟩
  | unary =>
    simp only [text, String.append_assoc]
    exact paren _
  | @binary op l r =>
    by_cases other : op = .subscript
    · subst other
      simp only [text, String.append_assoc]
      exact paren _
    · simp only [text_binary other, String.append_assoc]
      exact paren _
  | conditional =>
    simp only [text, String.append_assoc]
    exact paren _
  | collection =>
    rw [text, String.append_assoc, String.toList_append]
    exact ⟨'[', _, rfl, by decide⟩

theorem lexable_of_binary {op : Operator} (form : op.form = .binary) (other : op ≠ .subscript) :
    op ∈ Operator.lexable := by
  cases op <;> first | decide | exact absurd rfl other | cases form

/-- A settled expression is read as its tokens. -/
theorem Settled.written {e : Expr} (h : e.Settled) :
    Written EndsOperand e.text.toList e.tokens := by
  have blank (rest : List Char) : EndsOperand (' ' :: rest) := endsOperand_of_mem (by simp) rest
  induction h with
  | value plain => exact Value.written_literal plain
  | var spelled => exact spelled.written.mono fun _ => endsName_of_endsOperand
  | @unary op e form operand _ ih =>
    have first := operand.noEquals
    have follows (rest : List Char) (_ : EndsOperand rest) : NoEquals (e.text.toList ++ rest) := by
      obtain ⟨c, more, eq, other⟩ := first
      exact ⟨c, more ++ rest, by rw [eq, List.cons_append], other⟩
    have inner : Written EndsOperand (op.symbol.toList ++ e.text.toList)
        (.operator op.lexeme :: e.tokens) := by
      cases op with
      | not => exact written_not.append ih follows
      | negate => exact written_minus.append ih follows
      | _ => cases form
    have eq : (Expr.unary op e).text.toList =
        '(' :: (op.symbol.toList ++ e.text.toList) ++ [')'] := by
      simp [text]
    rw [eq]
    exact inner.parens.before
  | @binary op l r form _ _ _ left right =>
    by_cases other : op = .subscript
    · subst other
      have inner := left.append (written_bracketOpen.andThen (right.append written_bracketClose
        fun rest _ => endsOperand_of_mem (by simp) rest)) fun rest _ =>
          endsOperand_of_mem (by simp) _
      have eq : (Expr.binary .subscript l r).text.toList =
          '(' :: (l.text.toList ++ (['['] ++ (r.text.toList ++ [']']))) ++ [')'] := by
        simp [text]
      rw [eq]
      exact (inner.mono fun _ _ => trivial).parens.before
    · have inner := left.append ((written_spaced (lexable_of_binary form other)).andThen right)
        fun rest _ => blank _
      have eq : (Expr.binary op l r).text.toList = '(' :: (l.text.toList ++
          (' ' :: (op.symbol.toList ++ [' ']) ++ r.text.toList)) ++ [')'] := by
        simp [text_binary other]
      rw [eq, tokens_binary other]
      exact inner.parens.before
  | @conditional c t f _ _ _ _ hc ht hf =>
    have colon : Written Anything [' ', ':', ' '] [.operator .colon] :=
      written_spaced (by decide : Operator.colon ∈ Operator.lexable)
    have question : Written Anything [' ', '?', ' '] [.operator .question] :=
      written_spaced (by decide : Operator.question ∈ Operator.lexable)
    have inner := hc.append (question.andThen (ht.append (colon.andThen hf) fun rest _ => blank _))
      fun rest _ => blank _
    have eq : (Expr.conditional c t f).text.toList = '(' :: (c.text.toList ++ ([' ', '?', ' '] ++
        (t.text.toList ++ ([' ', ':', ' '] ++ f.text.toList)))) ++ [')'] := by
      simp [text]
    rw [eq]
    exact inner.parens.before
  | @collection items labels _ _ _ _ ih =>
    rw [text, tokens, textItems_eq_map, tokensItems_eq_map]
    refine (written_bracketed (Value.forall₂_map fun item mem => ?_)).before
    rw [String.toList_append]
    exact (written_label (labels item mem)).andThen (ih item mem)

end Expr

end Stencil
