import Stencil.Token.Lexer

/-!
# Steps of the lexer

What the lexer does at a cursor, one token at a time. The readers carry the bounds of what is left
with them; the equations here leave the bounds out.
-/

namespace Stencil

/-- What ends in a text leaves the rest of the text, and what stands behind it. -/
theorem Cursor.advance_append {extra : Nat} {text rest : List Char} {here : Text.Location}
    (fits : extra ≤ text.length) : Cursor.advance ⟨text ++ rest, here⟩ extra =
      ⟨text.drop extra ++ rest, here.after (text.take extra)⟩ := by
  rw [Cursor.advance, List.drop_append_of_le_length fits, List.take_append_of_le_length fits]

namespace Token

/-- The tokens behind the name of a tag. -/
def scanTail (indicator : Char) : Cursor → Except LexError (List Lexeme)
  | ⟨[], _⟩ => .ok []
  | ⟨d :: r, here⟩ =>
    if d = '(' then (scanArguments indicator 0 ⟨r, here.next '('⟩).map (⟨.openParen, here⟩ :: ·)
    else if d = ':' then (scanText indicator ⟨r, here.next ':'⟩).map (⟨.blockMark, here⟩ :: ·)
    else scanText indicator ⟨d :: r, here⟩

/-- The tokens behind an argument list. -/
def scanClosed (indicator : Char) : Cursor → Except LexError (List Lexeme)
  | ⟨[], _⟩ => .ok []
  | ⟨d :: r, here⟩ =>
    if d = ':' then (scanText indicator ⟨r, here.next ':'⟩).map (⟨.blockMark, here⟩ :: ·)
    else scanText indicator ⟨d :: r, here⟩

/-- The tokens behind a parenthesis that closes, `depth` others being open. -/
def scanBehindClose (indicator : Char) : (depth : Nat) → Cursor → Except LexError (List Lexeme)
  | 0, cursor => scanClosed indicator cursor
  | depth + 1, cursor => scanArguments indicator depth cursor

theorem map_bind_pure {ε α : Type} (x : Except ε α) (f : α → α) :
    (do let a ← x; return f a) = x.map f := by
  cases x <;> rfl

theorem map_map {ε α β γ : Type} (x : Except ε α) (f : α → β) (g : β → γ) :
    (x.map f).map g = x.map fun a => g (f a) := by
  cases x <;> rfl

/-- Text up to a tag, the tag, and what is behind its name. -/
theorem scanText_eq (indicator : Char) (cursor : Cursor) :
    scanText indicator cursor =
      match scanRaw indicator cursor.rest cursor.location with
      | (text, ⟨[], _⟩) => .ok (rawLexeme text cursor.location)
      | (text, ⟨c :: rest, place⟩) =>
        (scanTail indicator (Cursor.span Text.isNameChar ⟨rest, place.next c⟩).2).map
          ((rawLexeme text cursor.location ++
            [⟨.tag (String.ofList (rest.takeWhile Text.isNameChar)), place⟩]) ++ ·) := by
  rw [scanText]
  split
  · rename_i text place bound eq _
    rw [eq]
  · rename_i text c rest place bound eq _
    rw [eq]
    dsimp only
    split
    · rename_i here bound' named _
      rw [named]
      simp [scanTail, Except.map, Cursor.span]
    · rename_i d r here bound' named _
      rw [named]
      simp only [scanTail, map_bind_pure]
      split
      · rw [map_map]
        rfl
      · split
        · rw [map_map]
          rfl
        · rfl

/-- One token of an argument list, and what is behind it. -/
theorem scanArguments_eq (indicator : Char) (depth : Nat) (cursor : Cursor) :
    scanArguments indicator depth cursor =
      match (cursor.span Text.isBlank).2 with
      | ⟨[], _⟩ => .ok []
      | ⟨c :: rest, here⟩ =>
        if c = '(' then
          (scanArguments indicator (depth + 1) ⟨rest, here.next c⟩).map (⟨.openParen, here⟩ :: ·)
        else if c = ')' then
          (scanBehindClose indicator depth ⟨rest, here.next c⟩).map (⟨.closeParen, here⟩ :: ·)
        else if c = ',' then
          (scanArguments indicator depth ⟨rest, here.next c⟩).map (⟨.comma, here⟩ :: ·)
        else
          match scanOperand c rest with
          | .error fault => .error ⟨here, fault⟩
          | .ok (token, extra) =>
            (scanArguments indicator depth (Cursor.advance ⟨rest, here.next c⟩ extra)).map
              (⟨token, here⟩ :: ·) := by
  rw [scanArguments]
  split
  · rename_i place bound eq _
    rw [eq]
  · rename_i c rest here bound eq _
    rw [eq]
    dsimp only
    split
    · exact map_bind_pure _ _
    · split
      · split
        · exact map_bind_pure _ _
        · rfl
        · dsimp only [scanBehindClose, scanClosed]
          split
          · rw [map_bind_pure, map_map]
          · exact map_bind_pure _ _
      · split
        · exact map_bind_pure _ _
        · cases scanOperand c rest with
          | error fault => rfl
          | ok taken => exact map_bind_pure _ _

section Blanks

variable {c : Char} (indicator : Char) (depth : Nat) (text : List Char) (here : Text.Location)

/-- A blank in front is passed over. -/
theorem scanArguments_blank (blank : Text.isBlank c = true) :
    scanArguments indicator depth ⟨c :: text, here⟩ =
      scanArguments indicator depth ⟨text, here.next c⟩ := by
  have skipped : (Cursor.span Text.isBlank ⟨c :: text, here⟩).2 =
      (Cursor.span Text.isBlank ⟨text, here.next c⟩).2 := by
    simp [Cursor.span, blank]
  rw [scanArguments_eq, skipped, ← scanArguments_eq]

/-- Blanks in front of anything are passed over. -/
theorem scanArguments_skip {blanks : List Char} (blank : ∀ c ∈ blanks, Text.isBlank c = true) :
    scanArguments indicator depth ⟨blanks ++ text, here⟩ =
      scanArguments indicator depth ⟨text, here.after blanks⟩ := by
  induction blanks generalizing here with
  | nil => rfl
  | cons c blanks ih =>
    rw [List.cons_append, scanArguments_blank _ _ _ _ (blank c List.mem_cons_self),
      ih _ fun d mem => blank d (.tail _ mem)]
    rfl

/-- Without a blank in front, a token is read at once. -/
theorem scanArguments_front (first : Text.isBlank c = false) :
    scanArguments indicator depth ⟨c :: text, here⟩ =
      if c = '(' then
        (scanArguments indicator (depth + 1) ⟨text, here.next c⟩).map (⟨.openParen, here⟩ :: ·)
      else if c = ')' then
        (scanBehindClose indicator depth ⟨text, here.next c⟩).map (⟨.closeParen, here⟩ :: ·)
      else if c = ',' then
        (scanArguments indicator depth ⟨text, here.next c⟩).map (⟨.comma, here⟩ :: ·)
      else
        match scanOperand c text with
        | .error fault => .error ⟨here, fault⟩
        | .ok (token, extra) =>
          (scanArguments indicator depth (Cursor.advance ⟨text, here.next c⟩ extra)).map
            (⟨token, here⟩ :: ·) := by
  have span : (Cursor.span Text.isBlank ⟨c :: text, here⟩).2 = ⟨c :: text, here⟩ := by
    simp [Cursor.span, first]
  have read := scanArguments_eq indicator depth ⟨c :: text, here⟩
  rw [span] at read
  exact read

end Blanks

section Fronts

variable {indicator : Char} (rest : List Char) (here : Text.Location)

theorem scanTail_paren : scanTail indicator ⟨'(' :: rest, here⟩ =
    (scanArguments indicator 0 ⟨rest, here.next '('⟩).map (⟨.openParen, here⟩ :: ·) := by
  rw [scanTail, if_pos rfl]

theorem scanTail_mark : scanTail indicator ⟨':' :: rest, here⟩ =
    (scanText indicator ⟨rest, here.next ':'⟩).map (⟨.blockMark, here⟩ :: ·) := by
  rw [scanTail, if_neg (by decide), if_pos rfl]

theorem scanClosed_mark : scanClosed indicator ⟨':' :: rest, here⟩ =
    (scanText indicator ⟨rest, here.next ':'⟩).map (⟨.blockMark, here⟩ :: ·) := by
  rw [scanClosed, if_pos rfl]

variable (indicator) (depth : Nat)

theorem scanArguments_open : scanArguments indicator depth ⟨'(' :: rest, here⟩ =
    (scanArguments indicator (depth + 1) ⟨rest, here.next '('⟩).map (⟨.openParen, here⟩ :: ·) :=
  scanArguments_front _ _ _ _ (by decide)

theorem scanArguments_close : scanArguments indicator depth ⟨')' :: rest, here⟩ =
    (scanBehindClose indicator depth ⟨rest, here.next ')'⟩).map (⟨.closeParen, here⟩ :: ·) :=
  scanArguments_front _ _ _ _ (by decide)

theorem scanArguments_comma : scanArguments indicator depth ⟨',' :: rest, here⟩ =
    (scanArguments indicator depth ⟨rest, here.next ','⟩).map (⟨.comma, here⟩ :: ·) :=
  scanArguments_front _ _ _ _ (by decide)

end Fronts

section Operands

variable {c : Char} {rest : List Char} (blank : Text.isBlank c = false)
  (plain : c ∉ ['(', ')', ','])
include blank plain

/-- A token that is no parenthesis and no comma. -/
theorem scanArguments_operand {token : Token} {extra : Nat}
    (read : scanOperand c rest = .ok (token, extra)) (indicator : Char) (depth : Nat)
    (here : Text.Location) : scanArguments indicator depth ⟨c :: rest, here⟩ =
      (scanArguments indicator depth (Cursor.advance ⟨rest, here.next c⟩ extra)).map
        (⟨token, here⟩ :: ·) := by
  simp only [List.mem_cons, List.not_mem_nil, or_false, not_or] at plain
  rw [scanArguments_front _ _ _ _ blank]
  simp only [if_neg plain.1, if_neg plain.2.1, if_neg plain.2.2, read]

/-- A character that is in no token is a fault. -/
theorem scanArguments_fault {fault : LexFault} (refused : scanOperand c rest = .error fault)
    (indicator : Char) (depth : Nat) (here : Text.Location) :
    scanArguments indicator depth ⟨c :: rest, here⟩ = .error ⟨here, fault⟩ := by
  simp only [List.mem_cons, List.not_mem_nil, or_false, not_or] at plain
  rw [scanArguments_front _ _ _ _ blank]
  simp only [if_neg plain.1, if_neg plain.2.1, if_neg plain.2.2, refused]

end Operands

end Token

end Stencil
