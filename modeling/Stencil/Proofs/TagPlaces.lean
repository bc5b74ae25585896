import Stencil.Proofs.ClosedLists
import Stencil.Proofs.GroupedValues
import Stencil.Proofs.Replay
import Stencil.Proofs.SlicedLexer
import Stencil.Proofs.TokenPositions

/-!
# Places of tags

Whether the lexer meets an anonymous tag behind a text is decided by this text alone, and what it
reads on the way there is the same whatever the tag and what follows it are. Behind the argument
list of the tag it reads the same tokens, from whatever position it goes on.
-/

namespace Stencil

namespace Text.Location

theorem offset_lt_after (place : Location) {text : List Char} (some : text ≠ []) :
    place.offset < (place.after text).offset := by
  obtain ⟨c, text, rfl⟩ := List.exists_cons_of_ne_nil some
  have size : ((place.next c).after text).offset = (place.next c).offset + byteLength text :=
    offset_after _ text
  have first : place.offset < (place.next c).offset := offset_lt_next place c
  rw [after_cons]
  omega

end Text.Location

theorem TagStart.paren {indicator : Char} (start : TagStart indicator) : indicator ≠ '(' := by
  rintro rfl
  exact absurd start.stops (by decide)

namespace Token

open Sliced (remaining remaining_nil)
open Text (Location)

variable {indicator : Char}

/-- From a state on, the lexer meets an anonymous tag behind a text, in some source at least. -/
def Meets (indicator : Char) (state : LexState) (before : List Char) (here : Location) : Prop :=
  ∃ inside tokens,
    remaining indicator state ⟨before ++ indicator :: '(' :: inside, here⟩ = .ok tokens ∧
      ⟨.tag "", here.after before⟩ ∈ tokens

/-- Behind a text a tag can stand: the lexer meets an anonymous tag there in some source that starts
with the text. So the text does not end in the middle of an escape or of an argument list. -/
def TagPlace (indicator : Char) (before : List Char) : Prop := Meets indicator .text before {}

/-- From a state on, the lexer reads up to an anonymous tag behind a text, and what it reads does
not depend on the arguments of the tag and on what follows it. -/
def ReadsUpTo (indicator : Char) (state : LexState) (before : List Char) (here : Location) : Prop :=
  ∃ front : List Lexeme, ∀ inside,
    remaining indicator state ⟨before ++ indicator :: '(' :: inside, here⟩ =
      (scanArguments indicator 0
        ⟨inside, ((here.after before).next indicator).next '('⟩).map fun more =>
          front ++ ⟨.tag "", here.after before⟩ ::
            ⟨.openParen, (here.after before).next indicator⟩ :: more

/-- A token that ends before an indicator is the same whatever stands behind the parenthesis that
follows the indicator. -/
theorem scanOperand_before {c : Char} {token : Token} {extra : Nat}
    (name : Text.isNameChar indicator = false) {text : List Char} (inside : extra ≤ text.length)
    {behind : List Char}
    (read : scanOperand c (text ++ indicator :: '(' :: behind) = .ok (token, extra))
    (rest : List Char) : scanOperand c (text ++ indicator :: '(' :: rest) = .ok (token, extra) := by
  -- the indicator can be part of an operator, but the parenthesis cannot
  have operator (more : List Char) :
      Operator.leading? (c :: (text ++ indicator :: '(' :: more)) =
        Operator.leading? (c :: (text ++ [indicator])) := by
    have split : c :: (text ++ indicator :: '(' :: more) =
        (c :: (text ++ [indicator])) ++ '(' :: more := by simp
    rw [split, Operator.leading?_append (by decide)]
  refine scanOperand_of_inside name (fun more among => ?_)
    ((operator rest).trans (operator behind).symm) inside read
  rintro - d first
  simp only [List.mem_cons, List.not_mem_nil, or_false] at among
  rcases among with rfl | rfl <;> cases first <;> decide

/-- In an argument list no tag is met, and what is met behind it is behind its start. -/
theorem Scans.offset_lt_tag {depth : Nat} {cursor : Cursor} {read : Except LexError (List Lexeme)}
    {place : Location} {name : String} {tokens : List Lexeme}
    (h : Scans indicator (.arguments depth) cursor read) (ok : read = .ok tokens)
    (met : ⟨.tag name, place⟩ ∈ tokens) : cursor.location.offset < place.offset := by
  have emitted := h.emitted ok
  obtain ⟨all, ascending⟩ := h.located.ascending ok
  cases tokens with
  | nil => cases met
  | cons first tokens =>
    obtain ⟨token, there⟩ := first
    rcases List.mem_cons.mp met with same | later
    · cases same
      cases emitted.inside.1
    · exact (all _ List.mem_cons_self).trans_lt (List.rel_of_pairwise_cons ascending later)

/-- The place of a tag is no place in an argument list. -/
theorem Scans.front {depth : Nat} {c : Char} {rest before inside : List Char} {here : Location}
    {read : Except LexError (List Lexeme)} {tokens : List Lexeme}
    (h : Scans indicator (.arguments depth) ⟨c :: rest, here⟩ read)
    (whole : c :: rest = before ++ indicator :: '(' :: inside) (ok : read = .ok tokens)
    (met : ⟨.tag "", here.after before⟩ ∈ tokens) :
    ∃ more, before = c :: more ∧ rest = more ++ indicator :: '(' :: inside := by
  rcases List.cons_eq_append_iff.mp whole with ⟨rfl, -⟩ | front
  · exact absurd (h.offset_lt_tag ok met) (Nat.lt_irrefl _)
  · exact front

theorem not_mem_rawLexeme (name : String) (place here : Location) (raw : List Char) :
    ⟨.tag name, place⟩ ∉ rawLexeme raw here := by
  unfold rawLexeme
  split <;> simp

/-- Raw text in front of an anonymous tag ends at a tag before, or at this one, unless an escape
hides the indicator. -/
theorem scanRaw_before (backslash : indicator ≠ '\\') (before : List Char) (here : Location) :
    (∃ raw piece behind, before = piece ++ behind ∧ ∀ inside,
      scanRaw indicator (before ++ indicator :: '(' :: inside) here =
        (raw, ⟨behind ++ indicator :: '(' :: inside, here.after piece⟩)) ∨
    ∀ inside, (here.after before).offset <
      (scanRaw indicator (before ++ indicator :: '(' :: inside) here).2.location.offset := by
  have tag (here : Location) (inside : List Char) :
      scanRaw indicator (indicator :: '(' :: inside) here =
        ([], ⟨indicator :: '(' :: inside, here⟩) := by
    rw [scanRaw, if_neg fun both => backslash both.1, if_pos ⟨rfl, rfl⟩]
  fun_induction scanRaw indicator before here with
  | case1 here => exact .inl ⟨[], [], [], rfl, tag here⟩
  | case2 c here =>
    by_cases escape : c = '\\'
    · refine .inr fun inside => ?_
      obtain ⟨piece, -, behind, -⟩ :=
        scanRaw_front indicator ('(' :: inside) ((here.next c).next indicator)
      have size := Location.offset_after ((here.next c).next indicator) piece
      have next := Location.offset_lt_next (here.next c) indicator
      rw [List.singleton_append, scanRaw, if_pos ⟨escape, .inl rfl⟩]
      rw [Location.after_cons, Location.after_nil, behind]
      omega
    · by_cases opens : c = indicator ∧ opensTag indicator = true
      · refine .inl ⟨[], [], [c], rfl, fun inside => ?_⟩
        rw [List.singleton_append, scanRaw, if_neg fun both => escape both.1, if_pos opens]
        rfl
      · refine .inl ⟨[c], [c], [], rfl, fun inside => ?_⟩
        rw [List.singleton_append, scanRaw, if_neg fun both => escape both.1, if_neg opens, tag]
        rfl
  | case3 c d rest here escape text cursor eq ih =>
    rcases ih with ⟨raw, piece, behind, rfl, scanned⟩ | hidden
    · refine .inl ⟨d :: raw, c :: d :: piece, behind, rfl, fun inside => ?_⟩
      rw [List.cons_append, List.cons_append, scanRaw, if_pos escape, scanned]
      rfl
    · refine .inr fun inside => ?_
      rw [List.cons_append, List.cons_append, scanRaw, if_pos escape]
      exact hidden inside
  | case4 c d rest here noEscape opens =>
    refine .inl ⟨[], [], c :: d :: rest, rfl, fun inside => ?_⟩
    rw [List.cons_append, List.cons_append, scanRaw, if_neg noEscape, if_pos opens]
    rfl
  | case5 c d rest here noEscape noTag text cursor eq ih =>
    rcases ih with ⟨raw, piece, behind, split, scanned⟩ | hidden
    · refine .inl ⟨c :: raw, c :: piece, behind, by rw [split]; rfl, fun inside => ?_⟩
      rw [List.cons_append, List.cons_append, scanRaw, if_neg noEscape, if_neg noTag,
        ← List.cons_append, scanned]
      rfl
    · refine .inr fun inside => ?_
      rw [List.cons_append, List.cons_append, scanRaw, if_neg noEscape, if_neg noTag,
        ← List.cons_append]
      exact hidden inside

section Steps

variable {state : LexState} (state' : LexState) {before before' : List Char}
  {here there : Location}

/-- What is read before a state from which the lexer reads up to a tag is read before the tag. -/
theorem ReadsUpTo.behind (front : List Lexeme) (same : there.after before' = here.after before)
    (step : ∀ inside, remaining indicator state ⟨before ++ indicator :: '(' :: inside, here⟩ =
      (remaining indicator state' ⟨before' ++ indicator :: '(' :: inside, there⟩).map (front ++ ·))
    (more : ReadsUpTo indicator state' before' there) : ReadsUpTo indicator state before here := by
  obtain ⟨others, reads⟩ := more
  refine ⟨front ++ others, fun inside => ?_⟩
  rw [step, reads, map_map, same]
  simp only [List.append_assoc]

/-- The lexer passes to another state, or over blanks, without a token. -/
theorem ReadsUpTo.skip (same : there.after before' = here.after before)
    (step : ∀ inside, remaining indicator state ⟨before ++ indicator :: '(' :: inside, here⟩ =
      remaining indicator state' ⟨before' ++ indicator :: '(' :: inside, there⟩)
    (more : ReadsUpTo indicator state' before' there) : ReadsUpTo indicator state before here := by
  refine .behind state' [] same (fun inside => ?_) more
  rw [step]
  generalize remaining indicator state' _ = read
  cases read <;> rfl

/-- The lexer reads up to a tag behind a character that is a token. -/
theorem ReadsUpTo.token (token : Token) {c : Char}
    (step : ∀ inside,
      remaining indicator state ⟨c :: (before ++ indicator :: '(' :: inside), here⟩ =
        (remaining indicator state' ⟨before ++ indicator :: '(' :: inside, here.next c⟩).map
          (⟨token, here⟩ :: ·))
    (more : ReadsUpTo indicator state' before (here.next c)) :
    ReadsUpTo indicator state (c :: before) here := by
  have same : (here.next c).after before = here.after (c :: before) := rfl
  exact .behind state' [⟨token, here⟩] same step more

end Steps

/-- A tag that is met behind a token of another kind is met among the others. -/
theorem met_behind {read : Except LexError (List Lexeme)} {token : Token} {here place : Location}
    {tokens : List Lexeme} (other : token ≠ .tag "")
    (ok : read.map (⟨token, here⟩ :: ·) = .ok tokens) (met : ⟨.tag "", place⟩ ∈ tokens) :
    ∃ behind, read = .ok behind ∧ ⟨.tag "", place⟩ ∈ behind := by
  obtain ⟨behind, more, rfl⟩ := ok_of_map ok
  refine ⟨behind, more, (List.mem_cons.mp met).resolve_left fun same => ?_⟩
  exact other (congrArg Lexeme.token same).symm

section Text

variable {before piece raw rest : List Char} {here place : Location} {c : Char}
  {read : Except LexError (List Lexeme)} {tokens : List Lexeme}

/-- Raw text stops at the tag itself. -/
theorem readsUpTo_here (stops : ∀ inside, scanRaw indicator (before ++ indicator :: '(' :: inside)
      here = (raw, ⟨indicator :: '(' :: inside, here.after before⟩)) :
    ReadsUpTo indicator .text before here := by
  refine ⟨rawLexeme raw here, fun inside => ?_⟩
  have paren : Text.isNameChar '(' = false := by decide
  rw [remaining, scanText_eq, stops]
  dsimp only [Cursor.span]
  rw [List.takeWhile_cons_of_neg (by simp [paren]), List.dropWhile_cons_of_neg (by simp [paren]),
    scanTail_paren, map_map]
  simp

/-- Raw text stops at a tag before, and behind the name of this one the lexer reads up to the tag.
-/
theorem readsUpTo_named (start : TagStart indicator) {behind : List Char}
    (stops : ∀ inside, scanRaw indicator ((piece ++ indicator :: behind) ++
      indicator :: '(' :: inside) here =
        (raw, ⟨(indicator :: behind) ++ indicator :: '(' :: inside, here.after piece⟩))
    (more : ReadsUpTo indicator .behindTag (behind.dropWhile Text.isNameChar)
      (((here.after piece).next indicator).after (behind.takeWhile Text.isNameChar))) :
    ReadsUpTo indicator .text (piece ++ indicator :: behind) here := by
  let name : Lexeme :=
    ⟨.tag (String.ofList (behind.takeWhile Text.isNameChar)), here.after piece⟩
  refine .behind .behindTag (rawLexeme raw here ++ [name]) ?_ (fun inside => ?_) more
  · rw [← Location.after_append, List.takeWhile_append_dropWhile, Location.after_append]
    rfl
  · rw [remaining, scanText_eq, stops]
    dsimp only [List.cons_append, Cursor.span]
    rw [takeWhile_append_stop start.name, dropWhile_append_stop start.name]
    rfl

/-- In front of a tag raw text stops at the tag, or at one before it, or it goes on over the tag,
since an escape hides it. -/
theorem readsUpTo_of_scanRaw (start : TagStart indicator) {inside : List Char}
    (scanned : scanRaw indicator (before ++ indicator :: '(' :: inside) here =
      (raw, ⟨c :: rest, place⟩)) :
    ReadsUpTo indicator .text before here ∨
      (∃ left there, (Cursor.span Text.isNameChar ⟨rest, place.next c⟩).2 =
        ⟨left ++ indicator :: '(' :: inside, there⟩ ∧ there.after left = here.after before ∧
        place.offset < (here.after before).offset ∧
        (ReadsUpTo indicator .behindTag left there → ReadsUpTo indicator .text before here)) ∨
      (here.after before).offset < place.offset := by
  rcases scanRaw_before start.backslash before here with ⟨raw, piece, left, rfl, stops⟩ | hidden
  · obtain ⟨rfl, same⟩ := Prod.mk.inj (scanned.symm.trans (stops inside))
    cases left with
    | nil =>
      rw [List.append_nil] at stops ⊢
      exact .inl (readsUpTo_here stops)
    | cons d left =>
      obtain rfl : d = indicator := by
        obtain ⟨-, -, -, -, first⟩ := scanRaw_front indicator
          ((piece ++ d :: left) ++ indicator :: '(' :: inside) here
        rw [stops] at first
        exact first d rfl
      rw [List.cons_append] at same
      cases same
      have ahead := Location.offset_lt_after (here.after piece) (List.cons_ne_nil c left)
      rw [← Location.after_append] at ahead
      refine .inr (.inl ⟨_, _, ?_, ?_, ahead, readsUpTo_named start stops⟩)
      · rw [Cursor.span, takeWhile_append_stop start.name, dropWhile_append_stop start.name]
      · rw [← Location.after_append, List.takeWhile_append_dropWhile, Location.after_append]
        rfl
  · have hidden := hidden inside
    rw [scanned] at hidden
    exact .inr (.inr hidden)

/-- A tag that is met behind raw text is the one that ends the text, or is met behind its name. -/
theorem Scans.met_behind_text {name : String} {met : Location}
    (more : Scans indicator .behindTag (Cursor.span Text.isNameChar ⟨rest, place.next c⟩).2 read)
    (ok : read.map ((rawLexeme raw here ++
      [⟨.tag (String.ofList (rest.takeWhile Text.isNameChar)), place⟩]) ++ ·) = .ok tokens)
    (meets : ⟨.tag name, met⟩ ∈ tokens) : met = place ∨
      place.offset < met.offset ∧ ∃ behind, read = .ok behind ∧ ⟨.tag name, met⟩ ∈ behind := by
  cases read with
  | error e => cases ok
  | ok behind =>
    cases ok
    dsimp only at meets
    rw [List.append_assoc, List.mem_append, List.mem_append, List.mem_singleton] at meets
    rcases meets with meets | same | meets
    · exact absurd meets (not_mem_rawLexeme _ _ _ _)
    · exact .inl (congrArg Lexeme.location same)
    · have next := Location.offset_lt_next place c
      have named := Location.offset_after (place.next c) (rest.takeWhile Text.isNameChar)
      have later := (more.located.ascending rfl).1 _ meets
      dsimp only [Cursor.span] at later
      exact .inr ⟨by omega, behind, rfl, meets⟩

end Text

section Operands

variable {depth extra : Nat} {c : Char} {before inside : List Char} {here : Location}

/-- A token does not go on over the place of a tag that is met behind it. -/
theorem Scans.fits_of_met {read : Except LexError (List Lexeme)} {tokens : List Lexeme}
    (more : Scans indicator (.arguments depth)
      (Cursor.advance ⟨before ++ indicator :: '(' :: inside, here⟩ extra) read)
    (ok : read = .ok tokens) (met : ⟨.tag "", here.after before⟩ ∈ tokens) :
    extra ≤ before.length := by
  by_contra longer
  have later := more.offset_lt_tag ok met
  have whole : (before ++ indicator :: '(' :: inside).take extra =
      before ++ (indicator :: '(' :: inside).take (extra - before.length) := by
    rw [List.take_append, List.take_of_length_le (Nat.le_of_not_le longer)]
  have ahead := Location.offset_after (here.after before)
    ((indicator :: '(' :: inside).take (extra - before.length))
  dsimp only [Cursor.advance] at later
  rw [whole, Location.after_append] at later
  omega

/-- A token that ends before the tag is read before it, whatever the tag is. -/
theorem readsUpTo_operand (start : TagStart indicator) {token : Token}
    (first : Text.isBlank c = false) (plain : c ∉ ['(', ')', ','])
    (taken : scanOperand c (before ++ indicator :: '(' :: inside) = .ok (token, extra))
    (fits : extra ≤ before.length)
    (more : ReadsUpTo indicator (.arguments depth) (before.drop extra)
      ((here.next c).after (before.take extra))) :
    ReadsUpTo indicator (.arguments depth) (c :: before) here := by
  refine .behind (.arguments depth) [⟨token, here⟩] ?_ (fun behind => ?_) more
  · rw [← Location.after_append, List.take_append_drop]
    rfl
  · rw [← Cursor.advance_append fits]
    exact scanArguments_operand first plain (scanOperand_before start.name fits taken behind) _ _ _

end Operands

/-- The lexer reads up to the tags that it meets. The induction is on what it reads up to one of
them, with one source behind it; what is read is then the same with any other. -/
theorem Scans.readsUpTo (start : TagStart indicator) {state : LexState} {cursor : Cursor}
    {read : Except LexError (List Lexeme)} {before inside : List Char} {tokens : List Lexeme}
    (h : Scans indicator state cursor read)
    (whole : cursor.rest = before ++ indicator :: '(' :: inside) (ok : read = .ok tokens)
    (met : ⟨.tag "", cursor.location.after before⟩ ∈ tokens) :
    ReadsUpTo indicator state before cursor.location := by
  induction h generalizing before tokens with
  | ends => simp at whole
  | textEnds =>
    cases ok
    exact absurd met (not_mem_rawLexeme _ _ _ _)
  | @tag text raw rest c here place read scanned more ih =>
    subst whole
    have behind := more.met_behind_text ok met
    rcases readsUpTo_of_scanRaw start scanned with reads | named | hidden
    · exact reads
    · obtain ⟨left, there, split, same, earlier, reads⟩ := named
      rw [split] at ih
      rcases behind with here | ⟨-, tokens, ok, met⟩
      · exact absurd (congrArg Location.offset here) earlier.ne'
      · exact reads (ih rfl ok (same ▸ met))
    · rcases behind with here | ⟨later, -⟩
      · exact absurd (congrArg Location.offset here) hidden.ne
      · exact absurd (hidden.trans later) (Nat.lt_irrefl _)
  | @openList rest here _ ih =>
    obtain ⟨behind, ok, met⟩ := met_behind (by rintro ⟨⟩) ok met
    rcases List.cons_eq_append_iff.mp whole with ⟨rfl, first⟩ | ⟨before, rfl, parts⟩
    · cases first
      exact absurd rfl start.paren
    · exact .token (.arguments 0) .openParen (fun inside => scanTail_paren _ here) (ih parts ok met)
  | @noList c rest here read other _ ih =>
    refine .skip .behindArguments rfl (fun inside => ?_) (ih whole ok met)
    rcases List.cons_eq_append_iff.mp whole with ⟨rfl, -⟩ | ⟨before, rfl, -⟩
    · exact if_neg start.paren
    · exact if_neg other
  | @mark rest here _ _ ih =>
    obtain ⟨behind, ok, met⟩ := met_behind (by rintro ⟨⟩) ok met
    rcases List.cons_eq_append_iff.mp whole with ⟨rfl, first⟩ | ⟨before, rfl, parts⟩
    · cases first
      exact absurd rfl start.colon
    · exact .token .text .blockMark (fun inside => scanClosed_mark _ here) (ih parts ok met)
  | @noMark c rest here read other _ ih =>
    refine .skip .text rfl (fun inside => ?_) (ih whole ok met)
    rcases List.cons_eq_append_iff.mp whole with ⟨rfl, -⟩ | ⟨before, rfl, -⟩
    · exact if_neg start.colon
    · exact if_neg other
  | @blank depth c rest here read blank more ih =>
    obtain ⟨before, rfl, parts⟩ := (Scans.blank blank more).front whole ok met
    have same : (here.next c).after before = here.after (c :: before) := rfl
    refine .skip (.arguments depth) same (fun inside => ?_) (ih parts ok met)
    exact scanArguments_blank _ _ _ _ blank
  | @openParen depth rest here read more ih =>
    obtain ⟨before, rfl, parts⟩ := (Scans.openParen more).front whole ok met
    obtain ⟨behind, ok, met⟩ := met_behind (by rintro ⟨⟩) ok met
    exact .token (.arguments (depth + 1)) .openParen
      (fun inside => scanArguments_open _ _ here _) (ih parts ok met)
  | @closeParen depth rest here read more ih =>
    obtain ⟨before, rfl, parts⟩ := (Scans.closeParen more).front whole ok met
    obtain ⟨behind, ok, met⟩ := met_behind (by rintro ⟨⟩) ok met
    exact .token (.arguments depth) .closeParen
      (fun inside => scanArguments_close _ _ here _) (ih parts ok met)
  | @closeList rest here more ih =>
    obtain ⟨before, rfl, parts⟩ := (Scans.closeList more).front whole ok met
    obtain ⟨behind, ok, met⟩ := met_behind (by rintro ⟨⟩) ok met
    exact .token .behindArguments .closeParen
      (fun inside => scanArguments_close _ _ here _) (ih parts ok met)
  | @comma depth rest here read more ih =>
    obtain ⟨before, rfl, parts⟩ := (Scans.comma more).front whole ok met
    obtain ⟨behind, ok, met⟩ := met_behind (by rintro ⟨⟩) ok met
    exact .token (.arguments depth) .comma
      (fun inside => scanArguments_comma _ _ here _) (ih parts ok met)
  | @operand depth c rest here token extra read first plain taken more ih =>
    obtain ⟨before, rfl, rfl⟩ := (Scans.operand first plain taken more).front whole ok met
    have other : token ≠ .tag "" := by
      rintro rfl
      cases (stands_of_isOperand ⟨_, _, _, taken⟩ depth).1
    obtain ⟨behind, ok, met⟩ := met_behind other ok met
    have fits := more.fits_of_met ok met
    rw [Cursor.advance_append fits] at ih
    refine readsUpTo_operand start first plain taken fits (ih rfl ok ?_)
    rwa [← Location.after_append, List.take_append_drop]
  | fault => cases ok

/-- Whether a token is an anonymous tag. -/
def isAnonymous : Token → Bool
  | tag name => name.isEmpty
  | _ => false

/-- A place of a tag is found by the lexer. -/
theorem tagPlace_of_scan {before inside : List Char}
    (found : ((scan indicator (String.ofList (before ++ indicator :: '(' :: inside))).toOption.any
      fun tokens => tokens.any fun l =>
        l.token.isAnonymous && l.location == ({} : Location).after before) = true) :
    TagPlace indicator before := by
  obtain ⟨tokens, read, met⟩ := ok_of_any found
  obtain ⟨⟨token, place⟩, met, same⟩ := List.any_eq_true.mp met
  obtain ⟨anonymous, same⟩ := Bool.and_eq_true_iff.mp same
  obtain rfl : place = ({} : Location).after before := eq_of_beq same
  obtain rfl : token = .tag "" := by
    cases token <;> simp_all [isAnonymous]
  unfold scan Cursor.start at read
  rw [String.toList_ofList] at read
  exact ⟨inside, tokens, read, met⟩

/-- The lexer reads a source up to a tag in it. -/
theorem TagPlace.readsUpTo (start : TagStart indicator) {before : List Char}
    (place : TagPlace indicator before) : ReadsUpTo indicator .text before {} := by
  obtain ⟨inside, tokens, read, met⟩ := place
  exact (scans_text indicator _).readsUpTo start rfl read met

/-- Two results of the lexer, of which both are faults, or both have the same tokens. -/
def Alike : Except LexError (List Lexeme) → Except LexError (List Lexeme) → Prop :=
  Paired fun tokens lexemes => lexemes.map (·.token) = tokens.map (·.token)

theorem Alike.token {read read' : Except LexError (List Lexeme)} (token : Token)
    (here there : Location) (h : Alike read read') :
    Alike (read.map (⟨token, here⟩ :: ·)) (read'.map (⟨token, there⟩ :: ·)) :=
  h.map fun _ _ same => congrArg (token :: ·) same

theorem scanRaw_anywhere (text : List Char) (here there : Location) :
    (scanRaw indicator text here).1 = (scanRaw indicator text there).1 ∧
      (scanRaw indicator text here).2.rest = (scanRaw indicator text there).2.rest := by
  fun_induction scanRaw indicator text here generalizing there with
  | case1 => exact ⟨rfl, rfl⟩
  | case2 => exact ⟨rfl, rfl⟩
  | case3 c d rest here escape text cursor eq ih =>
    have same := ih ((there.next c).next d)
    rw [eq] at same
    rw [scanRaw, if_pos escape]
    exact ⟨congrArg (d :: ·) same.1, same.2⟩
  | case4 c d rest here noEscape opens =>
    rw [scanRaw, if_neg noEscape, if_pos opens]
    exact ⟨rfl, rfl⟩
  | case5 c d rest here noEscape noTag text cursor eq ih =>
    have same := ih (there.next c)
    rw [eq] at same
    rw [scanRaw, if_neg noEscape, if_neg noTag]
    exact ⟨congrArg (c :: ·) same.1, same.2⟩

/-- What is read does not depend on the position where it starts. -/
theorem Scans.anywhere {state : LexState} {cursor : Cursor} {read : Except LexError (List Lexeme)}
    (h : Scans indicator state cursor read) (there : Location) :
    Alike read (remaining indicator state ⟨cursor.rest, there⟩) := by
  have lexeme (raw : List Char) (here there : Location) :
      (rawLexeme raw there).map (·.token) = (rawLexeme raw here).map (·.token) := by
    unfold rawLexeme
    split <;> rfl
  induction h generalizing there with
  | ends =>
    rw [remaining_nil]
    exact .done rfl
  | @textEnds text raw here place scanned =>
    obtain ⟨raws, rests⟩ := @scanRaw_anywhere indicator text here there
    rw [scanned] at raws rests
    rw [remaining, scanText_eq]
    split
    · rename_i raw' place' scanned'
      rw [scanned'] at raws
      obtain rfl : raw = raw' := raws
      exact .done (lexeme _ _ _)
    · rename_i scanned'
      rw [scanned'] at rests
      cases rests
  | @tag text raw rest c here place read scanned _ ih =>
    obtain ⟨raws, rests⟩ := @scanRaw_anywhere indicator text here there
    rw [scanned] at raws rests
    rw [remaining, scanText_eq]
    split
    · rename_i scanned'
      rw [scanned'] at rests
      cases rests
    · rename_i raw' c' rest' place' scanned'
      rw [scanned'] at raws rests
      obtain rfl : raw = raw' := raws
      cases rests
      refine (ih _).map fun tokens lexemes same => ?_
      simp [lexeme raw here there, same]
  | openList _ ih =>
    rw [remaining, scanTail_paren]
    exact (ih _).token _ _ _
  | noList other _ ih =>
    rw [remaining, scanTail, if_neg other]
    exact ih there
  | mark _ ih =>
    rw [remaining, scanClosed_mark]
    exact (ih _).token _ _ _
  | noMark other _ ih =>
    rw [remaining, scanClosed, if_neg other]
    exact ih there
  | blank blank _ ih =>
    rw [remaining, scanArguments_blank _ _ _ _ blank]
    exact ih _
  | openParen _ ih =>
    rw [remaining, scanArguments_open]
    exact (ih _).token _ _ _
  | closeParen _ ih | closeList _ ih =>
    rw [remaining, scanArguments_close]
    exact (ih _).token _ _ _
  | comma _ ih =>
    rw [remaining, scanArguments_comma]
    exact (ih _).token _ _ _
  | operand first plain taken _ ih =>
    rw [remaining, scanArguments_operand first plain taken]
    exact (ih _).token _ _ _
  | fault first plain refused =>
    rw [remaining, scanArguments_fault first plain refused]
    exact .failed _ _

/-- What stands behind an argument list is read in the same way from everywhere. -/
theorem scanClosed_anywhere (text : List Char) (here there : Location) :
    Alike (scanClosed indicator ⟨text, here⟩) (scanClosed indicator ⟨text, there⟩) :=
  (scans_closed indicator ⟨text, here⟩).anywhere there

end Token

end Stencil
