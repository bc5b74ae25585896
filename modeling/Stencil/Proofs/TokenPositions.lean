import Mathlib.Data.List.DropRight
import Stencil.Proofs.LexerStates
import Stencil.Proofs.Slices

/-!
# Positions of tokens

The lexer moves its position character by character, and never separately from what is left to read.
So each token stands at a character of the source, with the line, the column and the offset that the
text before this character gives it, and so does a fault of the lexer.
-/

namespace Stencil

namespace Text

theorem byteLength_eq (text : List Char) : byteLength text = (String.ofList text).utf8ByteSize := by
  induction text with
  | nil => rfl
  | cons c text ih =>
    rw [byteLength_cons, ih, String.ofList_cons, String.utf8ByteSize_append,
      String.utf8ByteSize_singleton]

namespace Location

/-- A position is that of a character of a source: its offset is the size of what stands before the
character, its line counts the line feeds there, and its column the characters behind the last of
them. -/
def StandsIn (place : Location) (source : String) : Prop :=
  ∃ before c behind, source.toList = before ++ c :: behind ∧
    place.offset = (String.ofList before).utf8ByteSize ∧
    place.line = 1 + before.count '\n' ∧
    place.column = 1 + (before.rtakeWhile (· != '\n')).length

theorem offset_lt_next (place : Location) (c : Char) : place.offset < (place.next c).offset := by
  have size := place.offset_after [c]
  rw [after_cons, after_nil, byteLength_cons, byteLength_nil] at size
  have positive := c.utf8Size_pos
  omega

/-- What the text before a position makes of the start of a source. -/
theorem after_start (before : List Char) : ({} : Location).after before =
    ⟨1 + before.count '\n', 1 + (before.rtakeWhile (· != '\n')).length, byteLength before⟩ := by
  induction before using List.reverseRecOn with
  | nil => rfl
  | append_singleton before c ih =>
    rw [after_append, ih, List.count_append, byteLength_append, byteLength_cons, byteLength_nil,
      Nat.add_zero]
    simp only [after_cons, after_nil, next]
    split
    · rename_i feed
      subst feed
      have ends : ¬('\n' != '\n') = true := by decide
      rw [List.rtakeWhile_concat_neg (· != '\n') _ _ ends]
      rfl
    · rename_i other
      have kept : (c != '\n') = true := bne_iff_ne.mpr other
      have none : List.count '\n' [c] = 0 := List.count_eq_zero.mpr (by simpa using Ne.symm other)
      rw [List.rtakeWhile_concat_pos (· != '\n') _ _ kept, none, List.length_append]
      rfl

theorem standsIn_after {source : String} {before behind : List Char} {c : Char}
    (parts : source.toList = before ++ c :: behind) :
    (({} : Location).after before).StandsIn source := by
  rw [after_start]
  exact ⟨before, c, behind, parts, byteLength_eq before, rfl, rfl⟩

/-- A position of a character lies on a boundary between characters, before the end. -/
theorem StandsIn.boundary {place : Location} {source : String} (h : place.StandsIn source) :
    (⟨place.offset⟩ : String.Pos.Raw).IsValid source ∧ place.offset < source.utf8ByteSize := by
  obtain ⟨before, c, behind, parts, offset, -, -⟩ := h
  have whole : source = String.ofList before ++ String.ofList (c :: behind) := by
    rw [← String.ofList_append, ← parts, String.ofList_toList]
  refine ⟨String.Pos.Raw.isValid_iff_exists_append.mpr ⟨_, _, whole, ?_⟩, ?_⟩
  · rw [offset]
    rfl
  · have size : 0 < (String.ofList (c :: behind)).utf8ByteSize := by
      rw [← byteLength_eq, byteLength_cons]
      exact Nat.add_pos_left c.utf8Size_pos _
    rw [whole, offset, String.utf8ByteSize_append]
    omega

end Location

end Text

namespace Token

open Text (Location)

/-- A position is that of a character of a source, and something holds of the character. -/
def AtChar (source : String) (holds : Char → Prop) (place : Location) : Prop :=
  ∃ before c behind, source.toList = before ++ c :: behind ∧
    place = ({} : Location).after before ∧ holds c

theorem AtChar.standsIn {source : String} {holds : Char → Prop} {place : Location}
    (h : AtChar source holds place) : place.StandsIn source := by
  obtain ⟨before, c, behind, parts, rfl, -⟩ := h
  exact Location.standsIn_after parts

theorem AtChar.mono {source : String} {holds holds' : Char → Prop} {place : Location}
    (h : AtChar source holds place) (weaker : ∀ c, holds c → holds' c) :
    AtChar source holds' place := by
  obtain ⟨before, c, behind, parts, start, seen⟩ := h
  exact ⟨before, c, behind, parts, start, weaker c seen⟩

/-- What a token can start with: raw text anything, a tag the indicator, and what stands behind a
tag a character that is not blank. -/
def StartsWith (indicator : Char) (c : Char) : Token → Prop
  | raw _ => True
  | tag _ => c = indicator
  | _ => Text.isBlank c = false

/-- A result of the lexer for a text that starts at a position: each token, and a fault, is at the
position of a character of the text, behind those of all tokens before it. -/
inductive Located (indicator : Char) :
    List Char → Location → Except LexError (List Lexeme) → Prop
  | ends {text : List Char} {here : Location} : Located indicator text here (.ok [])
  | fails {c : Char} {text : List Char} {here : Location} {fault : LexFault}
      (starts : Text.isBlank c = false) :
      Located indicator (c :: text) here (.error ⟨here, fault⟩)
  | skip {c : Char} {text : List Char} {here : Location} {read : Except LexError (List Lexeme)}
      (more : Located indicator text (here.next c) read) : Located indicator (c :: text) here read
  | token (token : Token) {c : Char} {text : List Char} {here : Location}
      {read : Except LexError (List Lexeme)} (starts : token.StartsWith indicator c)
      (more : Located indicator text (here.next c) read) :
      Located indicator (c :: text) here (read.map (⟨token, here⟩ :: ·))

namespace Located

variable {indicator c : Char} {text : List Char} {here : Location}
  {read : Except LexError (List Lexeme)}

theorem skipAll (piece : List Char) (h : Located indicator text (here.after piece) read) :
    Located indicator (piece ++ text) here read := by
  induction piece generalizing here with
  | nil => exact h
  | cons c piece ih => exact .skip (ih h)

theorem skipSpan {p : Char → Bool}
    (h : Located indicator (text.dropWhile p) (here.after (text.takeWhile p)) read) :
    Located indicator text here read := by
  rw [← List.takeWhile_append_dropWhile (p := p) (l := text)]
  exact h.skipAll _

/-- Raw text that is not empty takes a character at least. -/
theorem rawText {raw piece : List Char} (takes : raw ≠ [] → piece ≠ [])
    (h : Located indicator text (here.after piece) read) :
    Located indicator (piece ++ text) here (read.map (rawLexeme raw here ++ ·)) := by
  unfold rawLexeme
  split
  · have same : read.map (([] : List Lexeme) ++ ·) = read := by cases read <;> rfl
    rw [same]
    exact h.skipAll _
  · rename_i some
    obtain ⟨c, piece, rfl⟩ := List.exists_cons_of_ne_nil (takes (by simpa using some))
    exact .token _ trivial (skipAll piece h)

/-- The operand at the front takes its first character. -/
theorem operand {indicator : Char} (extra : Nat) {token : Token}
    (first : Text.isBlank c = false) (isOperand : token.IsOperand)
    (h : Located indicator (text.drop extra) ((here.next c).after (text.take extra)) read) :
    Located indicator (c :: text) here (read.map (⟨token, here⟩ :: ·)) := by
  have starts : token.StartsWith indicator c := by
    have inside := (stands_of_isOperand isOperand 0).1
    cases token with
    | raw | tag | blockMark => cases inside
    | _ => exact first
  refine .token _ starts ?_
  rw [← List.take_append_drop extra text]
  exact h.skipAll _

variable {source : String}

/-- The tokens behind a token are at characters behind its own. -/
theorem ascending (h : Located indicator text here read) {tokens : List Lexeme}
    (ok : read = .ok tokens) : (∀ l ∈ tokens, here.offset ≤ l.location.offset) ∧
      tokens.Pairwise fun l l' => l.location.offset < l'.location.offset := by
  induction h generalizing tokens with
  | ends =>
    cases ok
    exact ⟨by simp, .nil⟩
  | fails => cases ok
  | @skip c text here read more ih =>
    have size : here.offset ≤ (here.next c).offset := (Location.offset_lt_next here c).le
    obtain ⟨all, ascending⟩ := ih ok
    exact ⟨fun l inside => size.trans (all l inside), ascending⟩
  | @token token c text here read starts more ih =>
    cases read with
    | error e => cases ok
    | ok behind =>
      cases ok
      have size : here.offset < (here.next c).offset := Location.offset_lt_next here c
      obtain ⟨all, ascending⟩ := ih rfl
      refine ⟨?_, .cons (fun l inside => size.trans_le (all l inside)) ascending⟩
      intro l inside
      rcases List.mem_cons.mp inside with rfl | inside
      · exact le_rfl
      · exact size.le.trans (all l inside)

/-- The induction is on what is left of the source. -/
theorem tokens_at (front : List Char) (h : Located indicator text here read)
    (parts : source.toList = front ++ text) (reached : here = ({} : Location).after front)
    {tokens : List Lexeme} (ok : read = .ok tokens) :
    ∀ l ∈ tokens, AtChar source (l.token.StartsWith indicator) l.location := by
  induction h generalizing front tokens with
  | ends =>
    cases ok
    simp
  | fails => cases ok
  | @skip c text here read more ih =>
    have rest : source.toList = (front ++ [c]) ++ text := by simpa using parts
    exact ih _ rest (by rw [Location.after_append, ← reached]; rfl) ok
  | @token token c text here read starts more ih =>
    cases read with
    | error e => cases ok
    | ok behind =>
      cases ok
      have rest : source.toList = (front ++ [c]) ++ text := by simpa using parts
      have all := ih _ rest (by rw [Location.after_append, ← reached]; rfl) rfl
      intro l inside
      rcases List.mem_cons.mp inside with rfl | inside
      · exact ⟨front, c, text, parts, reached, starts⟩
      · exact all l inside

theorem fault_at (front : List Char) (h : Located indicator text here read)
    (parts : source.toList = front ++ text) (reached : here = ({} : Location).after front)
    {e : LexError} (failed : read = .error e) :
    AtChar source (Text.isBlank · = false) e.location := by
  induction h generalizing front with
  | ends => cases failed
  | @fails c text here fault starts =>
    cases failed
    exact ⟨front, c, text, parts, reached, starts⟩
  | @skip c text here read more ih =>
    have rest : source.toList = (front ++ [c]) ++ text := by simpa using parts
    exact ih _ rest (by rw [Location.after_append, ← reached]; rfl) failed
  | @token token c text here read starts more ih =>
    cases read with
    | ok behind => cases failed
    | error e' =>
      cases failed
      have rest : source.toList = (front ++ [c]) ++ text := by simpa using parts
      exact ih _ rest (by rw [Location.after_append, ← reached]; rfl) rfl

end Located

/-- Raw text is read from the front of what is left, up to an indicator or the end. -/
theorem scanRaw_front (indicator : Char) (text : List Char) (here : Location) :
    ∃ piece, text = piece ++ (scanRaw indicator text here).2.rest ∧
      (scanRaw indicator text here).2.location = here.after piece ∧
      ((scanRaw indicator text here).1 ≠ [] → piece ≠ []) ∧
      ∀ c ∈ (scanRaw indicator text here).2.rest.head?, c = indicator := by
  fun_induction scanRaw indicator text here with
  | case1 place => exact ⟨[], rfl, rfl, id, by simp⟩
  | case2 c place => exact ⟨[c], rfl, rfl, fun _ => List.cons_ne_nil _ _, by simp⟩
  | case3 c d rest place escape text cursor eq ih =>
    obtain ⟨piece, whole, behind, -, first⟩ := ih
    rw [eq] at whole behind first
    exact ⟨c :: d :: piece, by rw [whole]; rfl, behind, fun _ => List.cons_ne_nil _ _, first⟩
  | case4 c d rest place noEscape tag =>
    exact ⟨[], rfl, rfl, id, by simpa using tag.1⟩
  | case5 c d rest place noEscape noTag text cursor eq ih =>
    obtain ⟨piece, whole, behind, -, first⟩ := ih
    rw [eq] at whole behind first
    exact ⟨c :: piece, by rw [whole]; rfl, behind, fun _ => List.cons_ne_nil _ _, first⟩

/-- What the lexer reads from a state on is located: each character it passes is skipped, or starts a
token. -/
theorem Scans.located {indicator : Char} {state : LexState} {cursor : Cursor}
    {read : Except LexError (List Lexeme)} (h : Scans indicator state cursor read) :
    Located indicator cursor.rest cursor.location read := by
  have list : Text.isBlank '(' = false := by decide
  have mark : Text.isBlank ':' = false := by decide
  have close : Text.isBlank ')' = false := by decide
  have comma : Text.isBlank ',' = false := by decide
  induction h with
  | ends => exact .ends
  | @textEnds text raw here place scanned =>
    obtain ⟨piece, whole, -, takes, -⟩ := scanRaw_front indicator text here
    rw [scanned] at whole takes
    have last : Located indicator [] (here.after piece) (.ok []) := .ends
    have all := last.rawText takes
    rw [← whole] at all
    simpa [Except.map] using all
  | @tag text raw rest c here place read scanned _ ih =>
    obtain ⟨piece, whole, behind, takes, first⟩ := scanRaw_front indicator text here
    rw [scanned] at whole behind takes first
    dsimp only at whole behind takes first
    subst behind
    have starts : (Token.tag (String.ofList (rest.takeWhile Text.isNameChar))).StartsWith
        indicator c := first c rfl
    have all := (Located.token _ starts ih.skipSpan).rawText takes
    rw [← whole, map_map] at all
    simpa using all
  | openList _ ih => exact .token .openParen list ih
  | noList _ _ ih | noMark _ _ ih => exact ih
  | mark _ ih => exact .token .blockMark mark ih
  | blank _ _ ih => exact .skip ih
  | openParen _ ih => exact .token .openParen list ih
  | closeParen _ ih | closeList _ ih => exact .token .closeParen close ih
  | comma _ ih => exact .token .comma comma ih
  | operand first _ taken _ ih => exact .operand _ first ⟨_, _, _, taken⟩ ih
  | fault first => exact .fails first

theorem located_scan (indicator : Char) (source : String) :
    Located indicator source.toList {} (scan indicator source) :=
  (scans_text indicator (Cursor.start source)).located

variable {indicator : Char} {source : String}

/-- The tokens of a source, one behind the other, are at characters they can start with. -/
theorem tokens_at_chars {tokens : List Lexeme} (h : scan indicator source = .ok tokens) :
    (∀ l ∈ tokens, AtChar source (l.token.StartsWith indicator) l.location) ∧
    tokens.Pairwise fun l l' => l.location.offset < l'.location.offset := by
  have located := located_scan indicator source
  exact ⟨located.tokens_at [] rfl rfl h, (located.ascending h).2⟩

theorem fault_at_char {e : LexError} (h : scan indicator source = .error e) :
    AtChar source (Text.isBlank · = false) e.location :=
  (located_scan indicator source).fault_at [] rfl rfl h

/-- The position of every token, and of a fault of the lexer, is that of a character of the source,
and successive tokens have ascending offsets. -/
theorem positions_are_true (indicator : Char) (source : String) :
    (∀ tokens, scan indicator source = .ok tokens →
      (∀ lexeme ∈ tokens, lexeme.location.StandsIn source) ∧
      tokens.Pairwise fun l l' => l.location.offset < l'.location.offset) ∧
    ∀ e, scan indicator source = .error e → e.location.StandsIn source := by
  refine ⟨fun tokens h => ?_, fun e h => (fault_at_char h).standsIn⟩
  obtain ⟨all, ascending⟩ := tokens_at_chars h
  exact ⟨fun l inside => (all l inside).standsIn, ascending⟩

/-- A tag behind a line with a letter of two bytes, and a text that is not closed there. -/
theorem positions_are_true_behind_line :
    (∃ tokens, scan '#' "é\n#(a)" = .ok tokens ∧
      tokens.map (·.location) = [⟨1, 1, 0⟩, ⟨2, 1, 3⟩, ⟨2, 2, 4⟩, ⟨2, 3, 5⟩, ⟨2, 4, 6⟩] ∧
      (∀ lexeme ∈ tokens, lexeme.location.StandsIn "é\n#(a)") ∧
      tokens.Pairwise fun l l' => l.location.offset < l'.location.offset) ∧
    ∃ e, scan '#' "é\n#(\"" = .error e ∧ e.location.StandsIn "é\n#(\"" := by
  have read : ((scan '#' "é\n#(a)").toOption.any fun tokens => tokens.map (·.location) ==
      [⟨1, 1, 0⟩, ⟨2, 1, 3⟩, ⟨2, 2, 4⟩, ⟨2, 3, 5⟩, ⟨2, 4, 6⟩]) = true := by
    decide +kernel
  have refused : (scan '#' "é\n#(\"").isOk = false := by
    decide +kernel
  constructor
  · cases found : scan '#' "é\n#(a)" with
    | error e =>
      rw [found] at read
      cases read
    | ok tokens =>
      rw [found] at read
      exact ⟨tokens, rfl, eq_of_beq read, (positions_are_true '#' _).1 tokens found⟩
  · cases found : scan '#' "é\n#(\"" with
    | ok tokens =>
      rw [found] at refused
      cases refused
    | error e => exact ⟨e, rfl, (positions_are_true '#' _).2 e found⟩

end Token

end Stencil
