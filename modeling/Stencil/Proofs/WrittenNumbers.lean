import Stencil.Proofs.ShortestDigits
import Stencil.Proofs.WrittenTokens

/-!
# Numbers as tokens

Decimal digits are read as the integer they spell if it fits into 64 bits, and digits around a point
as the double nearest to their value.
-/

namespace Stencil.Token

open Literal

theorem isDigitOrGap_digit {c : Char} (h : c.isDigit = true) : isDigitOrGap 10 c = true :=
  of_digit (p := fun d => isDigitOrGap 10 d = true) (by decide) h

theorem digitValue?_digit {c : Char} (h : c.isDigit = true) :
    digitValue? c = some (c.toNat - '0'.toNat) :=
  of_digit (p := fun d => digitValue? d = some (d.toNat - '0'.toNat)) (by decide) h

/-- The characters of a run of decimal digits. -/
theorem run_cases {c : Char} (h : isDigitOrGap 10 c = true) :
    c ∈ ['0', '1', '2', '3', '4', '5', '6', '7', '8', '9', '_'] := by
  rw [isDigitOrGap, Bool.or_eq_true, beq_iff_eq] at h
  rcases h with digit | rfl
  · unfold isDigit digitValue? at digit
    split at digit
    · rename_i bounds
      have decimal : c.isDigit = true := by
        rw [Char.isDigit, Bool.and_eq_true, decide_eq_true_eq, decide_eq_true_eq]
        exact bounds
      exact List.mem_of_mem_dropLast (digit_cases decimal)
    · split at digit
      · simp at digit
      · split at digit
        · simp at digit
        · cases digit
  · decide

/-- What holds of the ten digits and the underscore holds of the characters of a run. -/
theorem of_run {p : Char → Prop} [DecidablePred p]
    (all : ['0', '1', '2', '3', '4', '5', '6', '7', '8', '9', '_'].all (fun d => p d) = true)
    {c : Char} (h : isDigitOrGap 10 c = true) : p c :=
  List.all_iff_forall_prop.mp all c (run_cases h)

/-- No character follows that goes on with a number. -/
def EndsNumber (rest : List Char) : Prop :=
  ∀ c, rest.head? = some c → Text.isNameChar c = false ∧ c ≠ '.'

theorem endsName_of_endsNumber {rest : List Char} (h : EndsNumber rest) : EndsName rest :=
  fun c first => (h c first).1

theorem endsNumber_of_endsOperand {rest : List Char} (h : EndsOperand rest) : EndsNumber rest := by
  obtain ⟨c, more, rfl, mem⟩ := h
  rintro d ⟨⟩
  simp only [List.mem_cons, List.not_mem_nil, or_false] at mem
  rcases mem with rfl | rfl | rfl | rfl | rfl | rfl <;> decide

/-- What ends a number ends a run of digits and is no sign of a base. -/
theorem EndsNumber.head {rest : List Char} (h : EndsNumber rest) {c : Char}
    (first : rest.head? = some c) :
    isDigitOrGap 10 c = false ∧ c ≠ 'b' ∧ c ≠ 'o' ∧ c ≠ 'x' := by
  have other := (h c first).1
  refine ⟨?_, ?_, ?_, ?_⟩
  · rw [← Bool.not_eq_true]
    intro digit
    have named : Text.isNameChar c = true :=
      of_run (p := fun d => Text.isNameChar d = true) (by decide) digit
    rw [named] at other
    cases other
  all_goals
    rintro rfl
    exact absurd other (by decide)

variable {digits : List Char}

theorem withoutGaps_digits (h : ∀ c ∈ digits, c.isDigit = true) : withoutGaps digits = digits := by
  refine List.filter_eq_self.mpr fun c mem => ?_
  exact of_digit (p := fun d => (d != '_') = true) (by decide) (h c mem)

theorem digitsValue_digits (h : ∀ c ∈ digits, c.isDigit = true) :
    digitsValue 10 digits = Nat.ofDigitChars 10 digits 0 := by
  unfold digitsValue
  generalize 0 = start
  induction digits generalizing start with
  | nil => simp
  | cons c digits ih =>
    have digit := digitValue?_digit (h c List.mem_cons_self)
    rw [List.foldl_cons, ih (fun d mem => h d (.tail _ mem)), Nat.ofDigitChars_cons, digit,
      Nat.mul_comm]
    rfl

theorem radixOf_eq {c : Char} {rest : List Char}
    (h : ∀ d, rest.head? = some d → d ≠ 'b' ∧ d ≠ 'o' ∧ d ≠ 'x') :
    radixOf (c :: rest) = (10, 0) := by
  unfold radixOf
  split
  · rename_i eq
    cases eq
    exact absurd rfl (h _ rfl).1
  · rename_i eq
    cases eq
    exact absurd rfl (h _ rfl).2.1
  · rename_i eq
    cases eq
    exact absurd rfl (h _ rfl).2.2
  · rfl

/-- Digits without the sign of another base in front. -/
theorem radixOf_run {rest : List Char} (h : ∀ c ∈ digits, isDigitOrGap 10 c = true)
    (nonempty : digits ≠ []) (behind : ∀ d, rest.head? = some d → d ≠ 'b' ∧ d ≠ 'o' ∧ d ≠ 'x') :
    radixOf (digits ++ rest) = (10, 0) := by
  cases digits with
  | nil => exact absurd rfl nonempty
  | cons c digits =>
    refine radixOf_eq fun d first => ?_
    cases digits with
    | nil => exact behind d first
    | cons e digits =>
      cases first
      exact of_run (p := fun d => d ≠ 'b' ∧ d ≠ 'o' ∧ d ≠ 'x') (by decide) (h d (by simp))

/-- An integer literal taken apart. -/
theorem parts_run {rest : List Char} (h : ∀ c ∈ digits, isDigitOrGap 10 c = true)
    (nonempty : digits ≠ []) (ends : EndsNumber rest) :
    Parts.ofText (digits ++ rest) = ⟨10, 0, digits, none, []⟩ := by
  have radix : radixOf (digits ++ rest) = (10, 0) :=
    radixOf_run h nonempty fun d first => (ends.head first).2
  have fraction : fractionOf 10 rest = none := by
    unfold fractionOf
    split
    · exact absurd rfl (ends _ rfl).2
    · rfl
  have taken := takeWhile_run h fun c first => (ends.head first).1
  have name : rest.takeWhile Text.isNameChar = [] :=
    takeWhile_run (List.forall_mem_nil _) (endsName_of_endsNumber ends)
  unfold Parts.ofText
  rw [radix]
  simp only [List.drop_zero, taken, List.drop_left, fraction, Option.map_none, Option.getD_none,
    name]

/-- A decimal literal taken apart. -/
theorem parts_decimal {whole fraction rest : List Char}
    (h : ∀ c ∈ whole ++ fraction, c.isDigit = true) (leading : whole ≠ [])
    (trailing : fraction ≠ [])
    (ends : EndsNumber rest) : Parts.ofText (whole ++ '.' :: (fraction ++ rest)) =
      ⟨10, 0, whole, some fraction, []⟩ := by
  have inWhole : ∀ c ∈ whole, isDigitOrGap 10 c = true := fun c mem =>
    isDigitOrGap_digit (h c (List.mem_append_left _ mem))
  have inFraction : ∀ c ∈ fraction, isDigitOrGap 10 c = true := fun c mem =>
    isDigitOrGap_digit (h c (List.mem_append_right _ mem))
  have radix : radixOf (whole ++ '.' :: (fraction ++ rest)) = (10, 0) :=
    radixOf_run inWhole leading (by rintro d ⟨⟩; decide)
  have taken := takeWhile_run inFraction fun c first => (ends.head first).1
  have behind : fractionOf 10 ('.' :: (fraction ++ rest)) = some fraction := by
    cases fraction with
    | nil => exact absurd rfl trailing
    | cons d fraction =>
      have first : isDigit 10 d = true :=
        of_digit (p := fun d => isDigit 10 d = true) (by decide) (h d (by simp))
      rw [List.cons_append] at taken ⊢
      simp only [fractionOf, first, taken]
      rfl
  have point : ∀ c, ('.' :: (fraction ++ rest)).head? = some c → isDigitOrGap 10 c = false := by
    rintro c ⟨⟩
    decide
  have taken' := takeWhile_run inWhole point
  have name : rest.takeWhile Text.isNameChar = [] :=
    takeWhile_run (List.forall_mem_nil _) (endsName_of_endsNumber ends)
  unfold Parts.ofText
  rw [radix]
  simp only [List.drop_zero, taken', List.drop_left, behind, Option.map_some, Option.getD_some,
    List.drop_succ_cons, name]

/-- Digits that are read as a literal. -/
theorem scanOperand_digits {c : Char} {rest : List Char} {parts : Parts} (digit : c.isDigit = true)
    (taken : Parts.ofText (c :: rest) = parts) : scanOperand c rest =
      match parts.value? with
      | some data => .ok (.literal data, parts.length - 1)
      | none => .error (.unexpected (String.ofList ((c :: rest).take parts.length))) := by
  obtain ⟨quote, dollar⟩ : c ≠ '\x22' ∧ c ≠ '$' :=
    of_digit (p := fun d => d ≠ '\x22' ∧ d ≠ '$') (by decide) digit
  subst taken
  exact (if_neg quote).trans ((if_neg dollar).trans (if_pos digit))

theorem digit_classes {c : Char} (digit : c.isDigit = true) :
    Text.isBlank c = false ∧ c ∉ ['(', ')', ','] :=
  of_digit (p := fun d => Text.isBlank d = false ∧ d ∉ ['(', ')', ',']) (by decide) digit

theorem int64?_natCast {n : Nat} (h : n < 2 ^ 63) :
    Value.int64? (n : Int) = some (Int64.ofInt n) := by
  unfold Value.int64?
  rw [Int64.toInt_minValue, Int64.toInt_maxValue, if_pos (by omega)]

/-- The integer that the digits of a natural are read as. The least integer, which no literal gives,
stands for naturals beyond 64 bits. -/
def readInteger (n : Nat) : Int64 := (Value.int64? n).getD Int64.minValue

theorem int64?_natCast_eq_none {n : Nat} (h : ¬n < 2 ^ 63) : Value.int64? (n : Int) = none := by
  unfold Value.int64?
  rw [Int64.toInt_minValue, Int64.toInt_maxValue, if_neg (by omega)]

theorem legible_readInteger {n : Nat} :
    (literal (.int (readInteger n))).Legible ↔ n < 2 ^ 63 := by
  unfold readInteger
  by_cases less : n < 2 ^ 63
  · rw [int64?_natCast less]
    refine iff_of_true (fun least => ?_) less
    have same : Int64.ofInt n = Int64.minValue := by
      injection least with least
      injection least
    have toInt := congrArg Int64.toInt same
    rw [Int64.toInt_minValue, Int64.toInt_ofInt_of_le (by omega) (by omega)] at toInt
    omega
  · rw [int64?_natCast_eq_none less]
    exact iff_of_false (fun legible => legible rfl) less

/-- A digit and what goes on with it is an integer; one beyond 64 bits is refused. -/
theorem written_run {c : Char} {more : List Char} (digit : c.isDigit = true)
    (h : ∀ d ∈ more, isDigitOrGap 10 d = true) : Written EndsNumber (c :: more)
      [.literal (.int (readInteger (digitsValue 10 (withoutGaps (c :: more)))))] := by
  obtain ⟨blank, plain⟩ := digit_classes digit
  have run : ∀ d ∈ c :: more, isDigitOrGap 10 d = true := by
    intro d mem
    rcases List.mem_cons.mp mem with rfl | mem
    · exact isDigitOrGap_digit digit
    · exact h d mem
  have kept : (withoutGaps (c :: more)).isEmpty = false := by
    have first : withoutGaps [c] = [c] := withoutGaps_digits (by simpa using digit)
    unfold withoutGaps at first ⊢
    rw [← List.singleton_append, List.filter_append, first]
    rfl
  have value : Parts.value? ⟨10, 0, c :: more, none, []⟩ =
      (Value.int64? (digitsValue 10 (withoutGaps (c :: more)) : Nat)).map .int := by
    unfold Parts.value?
    simp [kept]
  have taken {rest : List Char} (ends : EndsNumber rest) :=
    parts_run run (List.cons_ne_nil _ _) ends
  simp only [List.cons_append] at taken
  generalize digitsValue 10 (withoutGaps (c :: more)) = n at value ⊢
  by_cases less : n < 2 ^ 63
  · refine written_of_scanOperand blank plain (legible_readInteger.mpr less) fun rest ends => ?_
    rw [scanOperand_digits digit (taken ends), value, readInteger, int64?_natCast less]
    simp [Parts.length]
  · constructor
    · intro legible
      exact absurd (legible_readInteger.mp (legible _ List.mem_cons_self)) less
    · intro _ indicator depth here rest ends
      have refused := scanOperand_digits digit (taken ends)
      rw [value, int64?_natCast_eq_none less] at refused
      exact ⟨_, scanArguments_fault blank plain refused indicator depth here⟩

/-- The digits of a natural; the least that does not fit is refused. -/
theorem written_natural {n : Nat} (h : n ≤ 2 ^ 63) :
    Written EndsOperand (Nat.toDigits 10 n) [.literal (.int (Int64.ofInt n))] := by
  have digits : ∀ c ∈ Nat.toDigits 10 n, c.isDigit = true := fun c mem =>
    Nat.isDigit_of_mem_toDigits (by omega) (by omega) mem
  have value : digitsValue 10 (withoutGaps (Nat.toDigits 10 n)) = n := by
    rw [withoutGaps_digits digits, digitsValue_digits digits, Nat.ofDigitChars_ten_toDigits]
  have read : readInteger n = Int64.ofInt n := by
    unfold readInteger
    rcases Nat.lt_or_eq_of_le h with less | rfl
    · rw [int64?_natCast less]
      rfl
    · decide
  cases eq : Nat.toDigits 10 n with
  | nil => exact absurd eq Nat.toDigits_ne_nil
  | cons c more =>
    rw [eq] at digits value
    have written := written_run (digits c List.mem_cons_self) fun d mem =>
      isDigitOrGap_digit (digits d (.tail _ mem))
    rw [value, read] at written
    exact written.mono fun _ => endsNumber_of_endsOperand

/-- Digits around a point. -/
theorem written_decimal {text whole fraction : List Char}
    (h : Double.Pointed text whole fraction) : Written EndsOperand text
      [.literal (.double (Double.ofDecimal (Nat.ofDigitChars 10 (whole ++ fraction) 0)
        (-(fraction.length : Int))))] := by
  obtain ⟨rfl, digits, leading, trailing⟩ := h
  have inWhole : ∀ c ∈ whole, c.isDigit = true := fun c mem => digits c (List.mem_append_left _ mem)
  have inFraction : ∀ c ∈ fraction, c.isDigit = true := fun c mem =>
    digits c (List.mem_append_right _ mem)
  have value : Parts.value? ⟨10, 0, whole, some fraction, []⟩ =
      some (.double (Double.ofDecimal (Nat.ofDigitChars 10 (whole ++ fraction) 0)
        (-(fraction.length : Int)))) := by
    unfold Parts.value?
    simp only [withoutGaps_digits inWhole, withoutGaps_digits inFraction, digitsValue_digits digits]
    simp [leading]
  have taken {rest : List Char} (ends : EndsOperand rest) :=
    parts_decimal digits leading trailing (endsNumber_of_endsOperand ends)
  cases whole with
  | nil => exact absurd rfl leading
  | cons c whole =>
    have digit : c.isDigit = true := inWhole c List.mem_cons_self
    obtain ⟨blank, plain⟩ := digit_classes digit
    rw [List.cons_append]
    refine written_of_scanOperand blank plain (by rintro ⟨⟩) fun rest ends => ?_
    have parts := taken ends
    rw [List.cons_append] at parts
    rw [List.append_assoc, List.cons_append, scanOperand_digits digit parts, value]
    simp [Parts.length]
    omega

end Stencil.Token
