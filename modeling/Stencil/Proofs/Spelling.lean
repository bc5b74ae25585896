import Stencil.Proofs.LexerStates

/-!
# How tokens are spelled

The tokens of a source carry only what the lexer can read: names are names and no reserved words,
texts fit between quotes, and integers have no sign.
-/

namespace Stencil

namespace Text

/-- A letter or an underscore, and name characters behind it. -/
def IsName (s : String) : Prop :=
  ∃ c rest, s.toList = c :: rest ∧ isNameStart c = true ∧ ∀ d ∈ rest, isNameChar d = true

/-- A text that can stand between quotes. -/
def Quotable (s : String) : Prop := ∀ c ∈ s.toList, c ≠ '\x22' ∧ c ≠ '\n'

theorem isName_of_cons {s : String} {c : Char} {rest : List Char} (eq : s.toList = c :: rest)
    (start : isNameStart c = true) (inside : rest.all isNameChar = true) : IsName s :=
  ⟨c, rest, eq, start, List.all_eq_true.mp inside⟩

theorem isNameChar_of_isName {s : String} (h : IsName s) : ∀ c ∈ s.toList, isNameChar c = true := by
  obtain ⟨c, rest, eq, start, more⟩ := h
  intro d mem
  rw [eq, List.mem_cons] at mem
  rcases mem with rfl | mem
  · exact isNameChar_of_isNameStart start
  · exact more d mem

/-- The name of an end tag. -/
theorem isName_end {s : String} (h : IsName s) : IsName ("end" ++ s) := by
  refine ⟨'e', 'n' :: 'd' :: s.toList, by simp, by decide, ?_⟩
  intro c mem
  rcases List.mem_cons.mp mem with rfl | mem
  · decide
  · rcases List.mem_cons.mp mem with rfl | mem
    · decide
    · exact isNameChar_of_isName h c mem

theorem not_dollar_of_isName {s : String} (h : IsName s) : ∀ rest, s.toList ≠ '$' :: rest := by
  obtain ⟨c, more, eq, start, _⟩ := h
  rintro rest same
  rw [eq] at same
  cases same
  exact absurd start (by decide)

theorem not_dot_of_isName {s : String} (h : IsName s) : ∀ c ∈ s.toList, c ≠ '.' := by
  rintro c mem rfl
  exact absurd (isNameChar_of_isName h _ mem) (by decide)

theorem not_isNameChar_quote : isNameChar '\x22' = false := by decide

theorem not_isNameChar_newline : isNameChar '\n' = false := by decide

theorem quotable_of_isName {s : String} (h : IsName s) : Quotable s := by
  intro c mem
  have inside := isNameChar_of_isName h c mem
  constructor
  · rintro rfl
    rw [not_isNameChar_quote] at inside
    cases inside
  · rintro rfl
    rw [not_isNameChar_newline] at inside
    cases inside

theorem Quotable.append {s t : String} (hs : Quotable s) (ht : Quotable t) : Quotable (s ++ t) := by
  intro c mem
  rw [String.toList_append, List.mem_append] at mem
  exact mem.elim (hs c) (ht c)

end Text

namespace Token

/-- What the lexer can read as a token. -/
def Spelled : Token → Prop
  | literal (.int i) => 0 ≤ i.toInt
  | literal (.string s) => Text.Quotable s
  | literal (.double _) => True
  | literal _ => False
  | operator op => op ∈ Operator.lexable
  | ident name => Text.IsName name ∧ Keyword.ofWord? name = none
  | scope name => Text.IsName name
  | _ => True

theorem mem_takeWhile {p : Char → Bool} {cs : List Char} {c : Char} (h : c ∈ cs.takeWhile p) :
    p c = true :=
  List.all_eq_true.mp List.all_takeWhile c h

theorem isName_ofList {c : Char} {rest : List Char} (start : Text.isNameStart c = true) :
    Text.IsName (String.ofList (c :: rest.takeWhile Text.isNameChar)) :=
  ⟨c, _, String.toList_ofList, start, fun _ => mem_takeWhile⟩

/-- A number literal is an integer without sign or a double. -/
theorem spelled_of_value? {p : Literal.Parts} {data : Value} (h : p.value? = some data) :
    (literal data).Spelled := by
  unfold Literal.Parts.value? at h
  dsimp only at h
  split at h
  · cases h
  · split at h
    · obtain ⟨i, found, rfl⟩ := Option.map_eq_some_iff.mp h
      show 0 ≤ i.toInt
      rw [Value.toInt_of_int64? found]
      exact Int.natCast_nonneg _
    · split at h
      · cases h
        trivial
      · obtain ⟨i, _, rfl⟩ := Option.map_eq_some_iff.mp h
        trivial

theorem mem_lexable_of_leading? {text : List Char} {op : Operator}
    (h : Operator.leading? text = some op) : op ∈ Operator.lexable :=
  List.mem_of_find?_eq_some h

theorem spelled_of_scanOperand {c : Char} {rest : List Char} {token : Token} {extra : Nat}
    (h : scanOperand c rest = .ok (token, extra)) : token.Spelled := by
  unfold scanOperand at h
  dsimp only at h
  split at h
  · split at h
    · cases h
      intro d mem
      have inside := mem_takeWhile (String.toList_ofList ▸ mem)
      simpa using inside
    · cases h
  · split at h
    · split at h
      · rename_i start
        cases h
        obtain ⟨d, more, rfl, start⟩ : ∃ d more, rest = d :: more ∧ Text.isNameStart d = true := by
          cases rest with
          | nil => cases start
          | cons d more => exact ⟨d, more, rfl, start⟩
        show Text.IsName _
        rw [List.takeWhile_cons, if_pos (Text.isNameChar_of_isNameStart start)]
        exact isName_ofList start
      · cases h
    · split at h
      · split at h
        · rename_i read
          cases h
          exact spelled_of_value? read
        · cases h
      · split at h
        · rename_i start
          cases h
          split
          · trivial
          · rename_i word
            exact ⟨isName_ofList start, word⟩
        · split at h
          · rename_i found
            cases h
            exact mem_lexable_of_leading? found
          · cases h

/-- What the lexer emits is spelled. -/
theorem spelled_of_emitted {state : LexState} {tokens : List Lexeme}
    (h : Emitted indicator state tokens) :
    ∀ l ∈ tokens, l.token.Spelled := by
  induction h with
  | ends => simp
  | noList _ ih => exact ih
  | noMark _ ih => exact ih
  | operand inner _ ih =>
    obtain ⟨c, rest, extra, read⟩ := inner
    exact List.forall_mem_cons.mpr ⟨spelled_of_scanOperand read, ih⟩
  | _ => exact List.forall_mem_cons.mpr ⟨trivial, ‹_›⟩

/-- The tokens of a source are spelled. -/
theorem spelled_of_scan {indicator : Char} {source : String} {tokens : List Lexeme}
    (h : scan indicator source = .ok tokens) : ∀ l ∈ tokens, l.token.Spelled :=
  spelled_of_emitted (emitted_of_scan h)

end Token

end Stencil
