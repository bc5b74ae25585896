import Mathlib.Data.Nat.Digits.Defs
import Stencil.Proofs.LexerTurns
import Stencil.Proofs.WrittenNumbers

/-!
# Integer literals

A run of digits of a base, behind the sign of the base, is the integer that the digits spell in
their positions if there is a digit and the integer is below `2 ^ 63`. All else is refused as a
whole: a run without a digit, an integer that is too large, and a run that goes on like a name, with
what it goes on with (`Token.integer_literals_spell`).
-/

namespace Stencil

namespace Literal

/-- The bases of integers. -/
inductive Base
  | binary
  | octal
  | decimal
  | hexadecimal

namespace Base

def radix : Base → Nat
  | binary => 2
  | octal => 8
  | decimal => 10
  | hexadecimal => 16

/-- The sign in front of the digits. -/
def sign : Base → List Char
  | binary => ['0', 'b']
  | octal => ['0', 'o']
  | decimal => []
  | hexadecimal => ['0', 'x']

end Base

/-- The digits of a run by value; underscores are none. -/
def digits (run : List Char) : List Nat := run.filterMap digitValue?

/-- The number that the digits of a run spell, each counting for as many times the base as there are
digits behind it. -/
def spelled (base : Base) (run : List Char) : Nat := Nat.ofDigits base.radix (digits run).reverse

/-- Behind the sign of its base a run of digits and underscores stands before a text that does not
go on with it. A decimal run starts with a digit, and is no part of the sign of another base. -/
structure Stands (base : Base) (run rest : List Char) : Prop where
  inside : ∀ c ∈ run, isDigitOrGap base.radix c = true
  maximal : ∀ c, rest.head? = some c → isDigitOrGap base.radix c = false
  first : base = .decimal → ∃ c more, run = c :: more ∧ c.isDigit = true
  unsigned : base = .decimal → run = ['0'] → ∀ c, rest.head? = some c → c ∉ ['b', 'o', 'x']

/-- Neither a name nor a fraction goes on with an integer. -/
structure StandsAlone (base : Base) (rest : List Char) : Prop where
  name : ∀ c, rest.head? = some c → Text.isNameChar c = false
  fraction : base = .decimal ∨ base = .hexadecimal → ∀ c more, rest = '.' :: c :: more →
    isDigit base.radix c = false

variable {base : Base} {run rest : List Char}

theorem digitsValue_withoutGaps (base : Base) (run : List Char) :
    digitsValue base.radix (withoutGaps run) = spelled base run := by
  have steps (start : Nat) : (withoutGaps run).foldl
      (fun value c => ((digitValue? c).map (value * base.radix + ·)).getD value) start =
        (digits run).foldl (fun value digit => value * base.radix + digit) start := by
    unfold digits withoutGaps
    induction run generalizing start with
    | nil => rfl
    | cons c run ih =>
      by_cases gap : c = '_'
      · subst gap
        exact ih start
      · have kept : (c != '_') = true := bne_iff_ne.mpr gap
        rw [List.filter_cons_of_pos (p := (· != '_')) kept, List.foldl_cons, ih,
          List.filterMap_cons]
        cases digitValue? c <;> rfl
  rw [digitsValue, steps, spelled, Nat.ofDigits_eq_foldr, List.foldr_reverse]
  congr 1
  funext value digit
  simp [Nat.mul_comm, Nat.add_comm]

/-- A run spells something if it has a digit. -/
theorem withoutGaps_eq_nil (h : ∀ c ∈ run, isDigitOrGap base.radix c = true) :
    withoutGaps run = [] ↔ digits run = [] := by
  rw [withoutGaps, digits, List.filter_eq_nil_iff, List.filterMap_eq_nil_iff]
  refine forall₂_congr fun c mem => ?_
  have kind := h c mem
  rw [isDigitOrGap, Bool.or_eq_true, beq_iff_eq] at kind
  rcases kind with digit | rfl
  · unfold isDigit at digit
    cases value : digitValue? c with
    | none =>
      rw [value] at digit
      cases digit
    | some n =>
      have other : c ≠ '_' := by
        rintro rfl
        cases value
      simp [other]
  · exact iff_of_true (by decide) rfl

/-- The text of a literal starts with a digit, whatever the base. -/
theorem Stands.exists_cons (h : Stands base run rest) :
    ∃ c more, base.sign ++ run = c :: more ∧ c.isDigit = true := by
  cases base with
  | decimal => exact h.first rfl
  | binary | octal | hexadecimal => exact ⟨'0', _, rfl, rfl⟩

/-- The text of a literal has the sign of its base and no other. -/
theorem Stands.radixOf (h : Stands base run rest) :
    radixOf (base.sign ++ run ++ rest) = (base.radix, base.sign.length) := by
  cases base with
  | binary | octal | hexadecimal => rfl
  | decimal =>
    obtain ⟨c, more, rfl, -⟩ := h.first rfl
    have plain (d : Char) (behind : List Char) (sign : d ∈ ['b', 'o', 'x']) :
        c :: more ++ rest ≠ '0' :: d :: behind := by
      intro same
      obtain ⟨rfl, next⟩ := List.cons.inj same
      cases more with
      | nil =>
        exact h.unsigned rfl rfl d (congrArg List.head? next) sign
      | cons e more =>
        obtain ⟨rfl, -⟩ := List.cons.inj next
        have digit := h.inside e (by simp)
        exact Token.of_run (p := fun d => d ∉ ['b', 'o', 'x']) (by decide) digit sign
    rw [Base.sign, List.nil_append]
    unfold Literal.radixOf
    split
    · exact absurd ‹_› (plain 'b' _ (by decide))
    · exact absurd ‹_› (plain 'o' _ (by decide))
    · exact absurd ‹_› (plain 'x' _ (by decide))
    · rfl

/-- A literal without a fraction taken apart. -/
theorem Stands.parts (h : Stands base run rest) (plain : fractionOf base.radix rest = none) :
    Parts.ofText (base.sign ++ run ++ rest) =
      ⟨base.radix, base.sign.length, run, none, rest.takeWhile Text.isNameChar⟩ := by
  have taken := Token.takeWhile_run h.inside h.maximal
  unfold Parts.ofText
  rw [h.radixOf]
  dsimp only
  rw [List.append_assoc, List.drop_left, taken, List.drop_left, plain]
  rfl

/-- A name, or the end, goes on with no fraction. -/
theorem fractionOf_of_name (named : ∀ c, rest.head? = some c → c ≠ '.') (radix : Nat) :
    fractionOf radix rest = none := by
  unfold fractionOf
  split
  · exact absurd rfl (named _ rfl)
  · rfl

theorem StandsAlone.fractionOf (h : StandsAlone base rest) : fractionOf base.radix rest = none := by
  unfold Literal.fractionOf
  split
  · rename_i c more
    rw [if_neg]
    rintro ⟨radix, digit⟩
    have known : base = .decimal ∨ base = .hexadecimal := by
      cases base with
      | decimal => exact .inl rfl
      | hexadecimal => exact .inr rfl
      | binary | octal => simp [Base.radix] at radix
    rw [h.fraction known c more rfl] at digit
    cases digit
  · rfl

theorem StandsAlone.takeWhile (h : StandsAlone base rest) : rest.takeWhile Text.isNameChar = [] := by
  cases rest with
  | nil => rfl
  | cons c rest => simp [h.name c rfl]

/-- An integer is read if there is a digit, nothing goes on like a name, and it fits. -/
theorem value?_integer {sign : Nat} {trailing : List Char}
    (h : ∀ c ∈ run, isDigitOrGap base.radix c = true) :
    Parts.value? ⟨base.radix, sign, run, none, trailing⟩ =
      if trailing = [] ∧ digits run ≠ [] then
        (Value.int64? (spelled base run : Nat)).map .int
      else none := by
  have none := withoutGaps_eq_nil h
  unfold Parts.value?
  simp only [digitsValue_withoutGaps]
  by_cases kept : trailing = [] ∧ digits run ≠ []
  · rw [if_pos kept, if_neg]
    simp [kept.1, none, kept.2]
  · rw [if_neg kept, if_pos]
    rw [Bool.or_eq_true, Bool.not_eq_true', List.isEmpty_eq_false_iff, List.isEmpty_iff, none]
    exact (not_and_or.mp kept).imp_right not_not.mp

end Literal

namespace Token

open Literal
open Text (Location)

variable {base : Base} {run rest : List Char}

/-- A literal without a fraction is read as a whole, with what goes on with it like a name. -/
theorem scanArguments_integer (indicator : Char) (depth : Nat) {blanks : List Char}
    (blank : ∀ c ∈ blanks, Text.isBlank c = true) (h : Stands base run rest)
    (plain : fractionOf base.radix rest = none) (here : Location) :
    let text := base.sign ++ run
    let trailing := rest.takeWhile Text.isNameChar
    let place := here.after blanks
    scanArguments indicator depth ⟨blanks ++ (text ++ rest), here⟩ =
      match if trailing = [] ∧ Literal.digits run ≠ [] then Value.int64? (spelled base run : Nat)
        else none with
      | some i => (scanArguments indicator depth ⟨rest, place.after text⟩).map
          (⟨.literal (.int i), place⟩ :: ·)
      | none => .error ⟨place, .unexpected (String.ofList (text ++ trailing))⟩ := by
  intro text trailing place
  obtain ⟨c, more, front, digit⟩ := h.exists_cons
  obtain ⟨notBlank, plain'⟩ := digit_classes digit
  simp only [List.mem_cons, List.not_mem_nil, or_false, not_or] at plain'
  let parts : Parts := ⟨base.radix, base.sign.length, run, none, trailing⟩
  have taken : Parts.ofText (text ++ rest) = parts := h.parts plain
  have size : parts.length = text.length + trailing.length := by
    simp [parts, Parts.length, text]
  have whole : (text ++ rest).take parts.length = text ++ trailing := by
    rw [size, List.take_length_add_append, Sliced.take_length_takeWhile]
  have value : parts.value? = _ := value?_integer h.inside
  have front : text = c :: more := front
  clear_value parts text trailing
  subst front
  rw [scanArguments_skip _ _ _ _ blank, List.cons_append, scanArguments_front _ _ _ _ notBlank]
  simp only [if_neg plain'.1, if_neg plain'.2.1, if_neg plain'.2.2]
  rw [List.cons_append] at taken whole
  rw [scanOperand_digits digit taken, whole, value]
  by_cases kept : trailing = [] ∧ Literal.digits run ≠ []
  · rw [if_pos kept, if_pos kept]
    cases Value.int64? (spelled base run : Nat) with
    | none => rfl
    | some i =>
      have behind : parts.length - 1 = more.length := by
        rw [size, kept.1]
        simp
      simp only [Option.map_some, Cursor.advance, behind, List.drop_left, List.take_left]
      rfl
  · rw [if_neg kept, if_neg kept]

variable {indicator : Char} {source : String} {front : List Lexeme} {depth : Nat}
  {blanks : List Char} {here : Location}

/-- Where the lexer comes to a literal in an argument list, it goes on behind the literal, or fails
at it. -/
theorem Arrives.scan_integer (blank : ∀ c ∈ blanks, Text.isBlank c = true)
    (h : Stands base run rest) (plain : fractionOf base.radix rest = none)
    (arrives : Arrives indicator .text (Cursor.start source) front (.arguments depth)
      ⟨blanks ++ (base.sign ++ run ++ rest), here⟩) :
    let text := base.sign ++ run
    let trailing := rest.takeWhile Text.isNameChar
    let place := here.after blanks
    if trailing = [] ∧ Literal.digits run ≠ [] ∧ spelled base run < 2 ^ 63 then
      ∃ i : Int64, i.toInt = spelled base run ∧
        scan indicator source = (scanArguments indicator depth ⟨rest, place.after text⟩).map
          fun more => front ++ ⟨.literal (.int i), place⟩ :: more
    else scan indicator source =
      .error ⟨place, .unexpected (String.ofList (text ++ trailing))⟩ := by
  intro text trailing place
  have read : scan indicator source = _ := arrives.scan_eq
  rw [Sliced.remaining, scanArguments_integer indicator depth blank h plain here] at read
  by_cases kept : trailing = [] ∧ Literal.digits run ≠ []
  · rw [if_pos kept] at read
    by_cases fits : spelled base run < 2 ^ 63
    · rw [if_pos ⟨kept.1, kept.2, fits⟩]
      rw [int64?_natCast fits] at read
      refine ⟨_, Int64.toInt_ofInt_of_le (by omega) (by omega), ?_⟩
      rw [read]
      exact map_map _ _ _
    · rw [if_neg fun all => fits all.2.2]
      rwa [int64?_natCast_eq_none fits] at read
  · rw [if_neg fun all => kept ⟨all.1, all.2.1⟩]
    rwa [if_neg kept] at read

/-- Integer literals mean the number that their digits spell. In an argument list a literal of any
base is the token of that integer, if it has a digit, is below `2 ^ 63`, and neither a name nor a
fraction goes on with it. Without a digit or beyond `2 ^ 63` it is refused where it starts, by its
whole text, and with what follows if a name goes on with it. -/
theorem integer_literals_spell (blank : ∀ c ∈ blanks, Text.isBlank c = true)
    (h : Stands base run rest)
    (arrives : Arrives indicator .text (Cursor.start source) front (.arguments depth)
      ⟨blanks ++ (base.sign ++ run ++ rest), here⟩) :
    let text := base.sign ++ run
    let place := here.after blanks
    (∃ before, source.toList = before ++ (text ++ rest) ∧ place = ({} : Location).after before) ∧
    (StandsAlone base rest →
      if Literal.digits run ≠ [] ∧ spelled base run < 2 ^ 63 then
        ∃ i : Int64, i.toInt = spelled base run ∧
          scan indicator source = (scanArguments indicator depth ⟨rest, place.after text⟩).map
            fun more => front ++ ⟨.literal (.int i), place⟩ :: more
      else scan indicator source = .error ⟨place, .unexpected (String.ofList text)⟩) ∧
    (∀ c, rest.head? = some c → Text.isNameChar c = true →
      scan indicator source = .error
        ⟨place, .unexpected (String.ofList (text ++ rest.takeWhile Text.isNameChar))⟩) := by
  intro text place
  refine ⟨?_, fun ends => ?_, fun c first named => ?_⟩
  · obtain ⟨before, parts, reached⟩ := arrives.isBehind
    refine ⟨before ++ blanks, ?_, ?_⟩
    · rw [List.append_assoc]
      exact parts
    · have start : here = ({} : Location).after before := reached
      rw [Location.after_append, ← start]
  · have read := arrives.scan_integer blank h ends.fractionOf
    simpa only [ends.takeWhile, List.append_nil, true_and] using read
  · have plain : fractionOf base.radix rest = none := by
      refine fractionOf_of_name (fun d first' point => ?_) base.radix
      cases first.symm.trans first'
      rw [point] at named
      exact absurd named (by decide)
    have read := arrives.scan_integer blank h plain
    have trailing : rest.takeWhile Text.isNameChar ≠ [] := by
      obtain ⟨more, rfl⟩ := List.head?_eq_some_iff.mp first
      simp [named]
    rwa [if_neg fun all => trailing all.1] at read

/-- A hexadecimal literal with a gap in front of its digits, before an operator. -/
theorem integer_literals_spell_hexadecimal :
    let run := ['_', '7', 'f', 'F']
    let rest := ['+', '1', ')']
    let front : List Lexeme := [⟨.tag "", ⟨1, 1, 0⟩⟩, ⟨.openParen, ⟨1, 2, 1⟩⟩]
    Stands .hexadecimal run rest ∧ StandsAlone .hexadecimal rest ∧
      Arrives '#' .text (Cursor.start "#( 0x_7fF+1)") front (.arguments 0)
        ⟨' ' :: (['0', 'x'] ++ run ++ rest), ⟨1, 3, 2⟩⟩ ∧
      ∃ i : Int64, i.toInt = 2047 ∧
        scan '#' "#( 0x_7fF+1)" = (scanArguments '#' 0 ⟨rest, ⟨1, 10, 9⟩⟩).map fun more =>
          front ++ ⟨.literal (.int i), ⟨1, 4, 3⟩⟩ :: more := by
  intro run rest front
  have stands : Stands .hexadecimal run rest := by
    constructor
    · simp [run]
      decide
    · rintro c ⟨⟩
      decide
    · rintro ⟨⟩
    · rintro ⟨⟩
  have ends : StandsAlone .hexadecimal rest := by
    constructor
    · rintro c ⟨⟩
      decide
    · intro _ c more same
      cases (List.cons.inj same).1
  have tag : turn '#' .text (Cursor.start "#( 0x_7fF+1)") =
      .ok ([⟨.tag "", ⟨1, 1, 0⟩⟩], .behindTag, ⟨"( 0x_7fF+1)".toList, ⟨1, 2, 1⟩⟩) := rfl
  have list : turn '#' .behindTag ⟨"( 0x_7fF+1)".toList, ⟨1, 2, 1⟩⟩ =
      .ok ([⟨.openParen, ⟨1, 2, 1⟩⟩], .arguments 0, ⟨" 0x_7fF+1)".toList, ⟨1, 3, 2⟩⟩) := rfl
  have arrives : Arrives '#' .text (Cursor.start "#( 0x_7fF+1)") front (.arguments 0)
      ⟨' ' :: (['0', 'x'] ++ run ++ rest), ⟨1, 3, 2⟩⟩ :=
    .turn (List.cons_ne_nil _ _) tag (.turn (List.cons_ne_nil _ _) list .here)
  have blank : ∀ c ∈ [' '], Text.isBlank c = true := by
    rw [List.forall_mem_singleton]
    decide
  obtain ⟨-, read, -⟩ := integer_literals_spell blank stands arrives
  have read := read ends
  rw [if_pos (by decide)] at read
  exact ⟨stands, ends, arrives, read⟩

end Token

end Stencil
