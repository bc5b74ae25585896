import Stencil.Proofs.SlicedLexer
import Stencil.Proofs.TokenPositions

/-!
# Turns of the lexer

The lexer goes on in turns: in each state it reads what is at its front, emits a token or a few, and
comes to a state and a place. The tokens of a source are those of the turns one after the other
(`Token.remaining_of_turn`). So once the lexer has come to a place, the tokens before it stay as
they are, and the rest of the source is read from there on (`Token.Arrives.scan_eq`).
-/

namespace Stencil

namespace Cursor
/-- A cursor stands behind another one, with the text between them passed. -/
def IsBehind (cursor' cursor : Cursor) : Prop :=
  ∃ piece, cursor.rest = piece ++ cursor'.rest ∧ cursor'.location = cursor.location.after piece

variable {cursor cursor' cursor'' : Cursor}

theorem IsBehind.refl (cursor : Cursor) : cursor.IsBehind cursor := ⟨[], rfl, rfl⟩

theorem IsBehind.trans (h' : cursor''.IsBehind cursor') (h : cursor'.IsBehind cursor) :
    cursor''.IsBehind cursor := by
  obtain ⟨piece, parts, reached⟩ := h
  obtain ⟨more, parts', reached'⟩ := h'
  refine ⟨piece ++ more, ?_, ?_⟩
  · rw [parts, parts', List.append_assoc]
  · rw [reached', reached, Text.Location.after_append]

theorem isBehind_cons (c : Char) (rest : List Char) (here : Text.Location) :
    IsBehind ⟨rest, here.next c⟩ ⟨c :: rest, here⟩ := ⟨[c], rfl, rfl⟩

theorem isBehind_span (p : Char → Bool) (cursor : Cursor) : (cursor.span p).2.IsBehind cursor :=
  ⟨cursor.rest.takeWhile p, List.takeWhile_append_dropWhile.symm, rfl⟩

theorem isBehind_advance (cursor : Cursor) (count : Nat) : (cursor.advance count).IsBehind cursor :=
  ⟨cursor.rest.take count, (List.take_append_drop count cursor.rest).symm, rfl⟩

theorem IsBehind.length_le (h : cursor'.IsBehind cursor) :
    cursor'.rest.length ≤ cursor.rest.length := by
  obtain ⟨piece, parts, -⟩ := h
  rw [parts, List.length_append]
  exact Nat.le_add_left _ _

/-- A cursor stands behind another one, with a character passed at least. -/
structure IsPast (cursor' cursor : Cursor) : Prop where
  isBehind : cursor'.IsBehind cursor
  length_lt : cursor'.rest.length < cursor.rest.length

theorem isPast_cons (c : Char) (rest : List Char) (here : Text.Location) :
    IsPast ⟨rest, here.next c⟩ ⟨c :: rest, here⟩ := ⟨isBehind_cons c rest here, Nat.lt_succ_self _⟩

theorem IsPast.behind (h : cursor'.IsPast cursor) (more : cursor''.IsBehind cursor') :
    cursor''.IsPast cursor :=
  ⟨more.trans h.isBehind, more.length_le.trans_lt h.length_lt⟩

theorem IsBehind.past (h : cursor'.IsBehind cursor) (more : cursor''.IsPast cursor') :
    cursor''.IsPast cursor :=
  ⟨more.isBehind.trans h, more.length_lt.trans_le h.length_le⟩

end Cursor

namespace Token

open Cursor (IsBehind isPast_cons isBehind_span isBehind_advance)
open Sliced (remaining remaining_nil remaining_stateBehind)

/-- One turn of the lexer: the tokens that it emits, and the state and the place that it comes to.
-/
def turn (indicator : Char) :
    LexState → Cursor → Except LexError (List Lexeme × LexState × Cursor)
  | .text, cursor =>
    match scanRaw indicator cursor.rest cursor.location with
    | (text, ⟨[], place⟩) => .ok (rawLexeme text cursor.location, .text, ⟨[], place⟩)
    | (text, ⟨c :: rest, place⟩) =>
      let named := Cursor.span Text.isNameChar ⟨rest, place.next c⟩
      .ok (rawLexeme text cursor.location ++ [⟨.tag (String.ofList named.1), place⟩],
        .behindTag, named.2)
  | .behindTag, ⟨[], here⟩ => .ok ([], .text, ⟨[], here⟩)
  | .behindTag, ⟨c :: rest, here⟩ =>
    if c = '(' then .ok ([⟨.openParen, here⟩], .arguments 0, ⟨rest, here.next '('⟩)
    else if c = ':' then .ok ([⟨.blockMark, here⟩], .text, ⟨rest, here.next ':'⟩)
    else .ok ([], .text, ⟨c :: rest, here⟩)
  | .arguments depth, cursor =>
    match (cursor.span Text.isBlank).2 with
    | ⟨[], here⟩ => .ok ([], .arguments depth, ⟨[], here⟩)
    | ⟨c :: rest, here⟩ =>
      if c = '(' then .ok ([⟨.openParen, here⟩], .arguments (depth + 1), ⟨rest, here.next c⟩)
      else if c = ')' then
        .ok ([⟨.closeParen, here⟩], closeParen.stateBehind depth, ⟨rest, here.next c⟩)
      else if c = ',' then .ok ([⟨.comma, here⟩], .arguments depth, ⟨rest, here.next c⟩)
      else
        match scanOperand c rest with
        | .error fault => .error ⟨here, fault⟩
        | .ok (token, extra) => .ok ([⟨token, here⟩], .arguments depth,
            Cursor.advance ⟨rest, here.next c⟩ extra)
  | .behindArguments, ⟨[], here⟩ => .ok ([], .text, ⟨[], here⟩)
  | .behindArguments, ⟨c :: rest, here⟩ =>
    if c = ':' then .ok ([⟨.blockMark, here⟩], .text, ⟨rest, here.next ':'⟩)
    else .ok ([], .text, ⟨c :: rest, here⟩)

variable {indicator : Char} {state state' state'' : LexState} {cursor cursor' cursor'' : Cursor}
  {front more : List Lexeme}

theorem map_nil_append (read : Except LexError (List Lexeme)) :
    read.map (([] : List Lexeme) ++ ·) = read := by
  cases read <;> rfl

/-- What the lexer reads is what it emits in a turn, and what it reads from where it comes to. -/
theorem remaining_of_turn (indicator : Char) (state : LexState) {cursor : Cursor}
    (left : cursor.rest ≠ []) :
    remaining indicator state cursor = (turn indicator state cursor).bind fun next =>
      (remaining indicator next.2.1 next.2.2).map (next.1 ++ ·) := by
  obtain ⟨rest, here⟩ := cursor
  obtain ⟨c, rest, rfl⟩ := List.exists_cons_of_ne_nil left
  cases state with
  | text =>
    rw [remaining, scanText_eq, turn]
    dsimp only
    cases scanRaw indicator (c :: rest) here with
    | mk text behind =>
      obtain ⟨more, place⟩ := behind
      cases more with
      | nil => simp only [Except.bind, remaining_nil, Except.map, List.append_nil]
      | cons d more => rfl
  | behindTag =>
    rw [remaining, scanTail, turn]
    split
    · rfl
    · split
      · rfl
      · exact (map_nil_append _).symm
  | arguments depth =>
    rw [remaining, scanArguments_eq, turn]
    generalize (Cursor.span Text.isBlank ⟨c :: rest, here⟩).2 = skipped
    obtain ⟨behind, place⟩ := skipped
    cases behind with
    | nil => rw [Except.bind, remaining_nil]; rfl
    | cons d behind =>
      dsimp only
      split
      · rfl
      · split
        · rw [← remaining_stateBehind]
          rfl
        · split
          · rfl
          · cases scanOperand d behind <;> rfl
  | behindArguments =>
    rw [remaining, scanClosed, turn]
    split
    · rfl
    · exact (map_nil_append _).symm

/-- A turn reads a character at least and goes on behind what it reads, or it leaves a tag or its
arguments for text and does nothing else. -/
theorem step_of_turn (left : cursor.rest ≠ [])
    (turns : turn indicator state cursor = .ok (front, state', cursor')) :
    cursor'.IsPast cursor ∨ (state = .behindTag ∨ state = .behindArguments) ∧
      state' = .text ∧ cursor' = cursor ∧ front = [] := by
  obtain ⟨rest, here⟩ := cursor
  obtain ⟨c, rest, rfl⟩ := List.exists_cons_of_ne_nil left
  cases state with
  | text =>
    obtain ⟨piece, whole, behind, -, -⟩ := scanRaw_front indicator (c :: rest) here
    rw [turn] at turns
    dsimp only at turns
    split at turns
    · rename_i text place scanned
      rw [scanned] at whole behind
      cases turns
      exact .inl ⟨⟨piece, whole, behind⟩, Nat.succ_pos _⟩
    · rename_i text d more place scanned
      rw [scanned] at whole behind
      cases turns
      have reached : IsBehind ⟨d :: more, place⟩ ⟨c :: rest, here⟩ := ⟨piece, whole, behind⟩
      exact .inl (reached.past ((isPast_cons d more place).behind (isBehind_span _ _)))
  | behindTag =>
    simp only [turn] at turns
    split at turns
    · rename_i list
      subst list
      cases turns
      exact .inl (isPast_cons ..)
    · split at turns
      · rename_i body
        subst body
        cases turns
        exact .inl (isPast_cons ..)
      · cases turns
        exact .inr ⟨.inl rfl, rfl, rfl, rfl⟩
  | behindArguments =>
    simp only [turn] at turns
    split at turns
    · rename_i body
      subst body
      cases turns
      exact .inl (isPast_cons ..)
    · cases turns
      exact .inr ⟨.inr rfl, rfl, rfl, rfl⟩
  | arguments depth =>
    have skipped := isBehind_span Text.isBlank ⟨c :: rest, here⟩
    rw [turn] at turns
    generalize (Cursor.span Text.isBlank ⟨c :: rest, here⟩).2 = behind at skipped turns
    obtain ⟨behind, place⟩ := behind
    cases behind with
    | nil =>
      cases turns
      exact .inl ⟨skipped, Nat.succ_pos _⟩
    | cons d behind =>
      have next := skipped.past (isPast_cons d behind place)
      dsimp only at turns
      split at turns
      · cases turns
        exact .inl next
      · split at turns
        · cases turns
          exact .inl next
        · split at turns
          · cases turns
            exact .inl next
          · split at turns
            · cases turns
            · cases turns
              exact .inl (next.behind (isBehind_advance _ _))

/-- The lexer comes from a state and a place to others, and emits these tokens on its way. -/
inductive Arrives (indicator : Char) :
    LexState → Cursor → List Lexeme → LexState → Cursor → Prop
  | here {state : LexState} {cursor : Cursor} : Arrives indicator state cursor [] state cursor
  | turn {state state' state'' : LexState} {cursor cursor' cursor'' : Cursor}
      {front more : List Lexeme} (left : cursor.rest ≠ [])
      (turns : turn indicator state cursor = .ok (front, state', cursor'))
      (rest : Arrives indicator state' cursor' more state'' cursor'') :
      Arrives indicator state cursor (front ++ more) state'' cursor''

namespace Arrives

/-- What is read before stays, and the rest is read from where the lexer arrives. -/
theorem remaining_eq (h : Arrives indicator state cursor front state' cursor') :
    remaining indicator state cursor = (remaining indicator state' cursor').map (front ++ ·) := by
  induction h with
  | here => exact (map_nil_append _).symm
  | turn left turns rest ih =>
    rw [remaining_of_turn _ _ left, turns]
    simp only [Except.bind, ih, map_map, List.append_assoc]

theorem scan_eq {source : String}
    (h : Arrives indicator .text (Cursor.start source) front state cursor) :
    scan indicator source = (remaining indicator state cursor).map (front ++ ·) :=
  h.remaining_eq

theorem isBehind (h : Arrives indicator state cursor front state' cursor') :
    cursor'.IsBehind cursor := by
  induction h with
  | here => exact .refl _
  | turn left turns _ ih =>
    rcases step_of_turn left turns with past | ⟨-, -, rfl, -⟩
    · exact ih.trans past.isBehind
    · exact ih

end Arrives

end Token

end Stencil
