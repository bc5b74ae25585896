import Mathlib.Algebra.Group.Int.Defs
import Stencil.Operator.Apply
import Stencil.Text.CharClass

/-!
# Formulas of integer arithmetic

The formulas that are written with decimal numerals, parentheses, signs and the five operators of
arithmetic, with any blanks between their parts. A formula has an exact value, an integer without
bounds, unless it divides by zero. The operators on 64 bit integers compute the exact value or
nothing, and they do compute it where all that comes up on the way fits into 64 bits.
-/

namespace Stencil

/-- How tight the parts of a formula hold together: a factor is a numeral, a formula in parentheses
or a factor with a sign, a term is made of factors, a sum of terms. -/
inductive Rank
  | factor | term | sum

/-- Blanks between two parts of a formula. -/
abbrev Gap := { blanks : List Char // ∀ c ∈ blanks, Text.isBlank c = true }

/-- No blanks. -/
def Gap.none : Gap := ⟨[], List.forall_mem_nil _⟩

/-- One blank. -/
def Gap.single (c : Char) (blank : Text.isBlank c = true) : Gap :=
  ⟨[c], List.forall_mem_singleton.mpr blank⟩

/-- A decimal numeral: a digit, and digits behind it that may be separated by underscores. -/
structure Numeral where
  first : Char
  more : List Char
  digit : first.isDigit = true
  digits : ∀ c ∈ more, c.isDigit = true ∨ c = '_'

namespace Numeral

def text (n : Numeral) : List Char := n.first :: n.more

/-- The number that the digits spell. -/
def value (n : Numeral) : Nat := Nat.ofDigitChars 10 (n.text.filter Char.isDigit) 0

end Numeral

/-- The operators of arithmetic between two operands. -/
def Operator.ofArithmetic : List Operator := [plus, minus, multiply, divide, modulo]

/-- The operators between factors. -/
inductive TermOperator
  | times | quotient | remainder
  deriving DecidableEq

/-- The operators between terms. -/
inductive SumOperator
  | plus | minus

/-- Formulas as they are written. Operators of one rank group to the left, and those between factors
before those between terms. -/
inductive Formula : Rank → Type
  | numeral (n : Numeral) : Formula .factor
  | group (opening : Gap) (inner : Formula .sum) (closing : Gap) : Formula .factor
  | negative (gap : Gap) (operand : Formula .factor) : Formula .factor
  | factor (only : Formula .factor) : Formula .term
  | scale (left : Formula .term) (before : Gap) (op : TermOperator) (behind : Gap)
    (right : Formula .factor) : Formula .term
  | term (only : Formula .term) : Formula .sum
  | shift (left : Formula .sum) (before : Gap) (op : SumOperator) (behind : Gap)
    (right : Formula .term) : Formula .sum

/-- An exact value that there is and that fits into 64 bits. -/
def Within (value? : Option Int) : Prop := ∃ n, value? = some n ∧ -2 ^ 63 ≤ n ∧ n < 2 ^ 63

instance decidableWithin : (value? : Option Int) → Decidable (Within value?)
  | none => isFalse (by rintro ⟨n, eq, _⟩; cases eq)
  | some n =>
    decidable_of_iff (-2 ^ 63 ≤ n ∧ n < 2 ^ 63)
      ⟨fun bounds => ⟨n, rfl, bounds⟩, by rintro ⟨_, ⟨⟩, bounds⟩; exact bounds⟩

/-- The integer that a value is. -/
def Value.integer? : Value → Option Int64
  | int i => some i
  | _ => none

namespace TermOperator

def operator : TermOperator → Operator
  | times => .multiply
  | quotient => .divide
  | remainder => .modulo

theorem operator_mem (op : TermOperator) : op.operator ∈ Operator.ofArithmetic := by
  cases op <;> decide

theorem precedence_operator (op : TermOperator) :
    op.operator.precedence = Operator.multiply.precedence := by
  cases op <;> rfl

/-- The exact result; quotients are cut toward zero, and remainders are what that leaves. -/
def value? (op : TermOperator) (a b : Int) : Option Int :=
  match op with
  | times => some (a * b)
  | quotient => if b = 0 then none else some (a.tdiv b)
  | remainder => if b = 0 then none else some (a.tmod b)

/-- Not the least integer of 64 bits divided by minus one. -/
def Divides (op : TermOperator) (a b : Option Int) : Prop :=
  op = times ∨ ¬(a = some (-2 ^ 63) ∧ b = some (-1))

instance (op : TermOperator) (a b : Option Int) : Decidable (op.Divides a b) :=
  inferInstanceAs (Decidable (op = times ∨ ¬(a = some (-2 ^ 63) ∧ b = some (-1))))

/-- The result on 64 bit integers, unless that is an error. -/
def computed? (op : TermOperator) (a b : Int64) : Option Int64 :=
  (op.operator.apply (.int a) (.int b)).integer?

end TermOperator

namespace SumOperator

def operator : SumOperator → Operator
  | plus => .plus
  | minus => .minus

theorem operator_mem (op : SumOperator) : op.operator ∈ Operator.ofArithmetic := by
  cases op <;> decide

theorem precedence_operator (op : SumOperator) :
    op.operator.precedence = Operator.plus.precedence := by
  cases op <;> rfl

/-- The exact result. -/
def value (op : SumOperator) (a b : Int) : Int :=
  match op with
  | plus => a + b
  | minus => a - b

/-- The result on 64 bit integers, unless that is an error. -/
def computed? (op : SumOperator) (a b : Int64) : Option Int64 :=
  (op.operator.apply (.int a) (.int b)).integer?

end SumOperator

namespace Formula

variable {rank : Rank}

/-- A formula as it is written. -/
def text {rank : Rank} : Formula rank → List Char
  | numeral n => n.text
  | group opening inner closing => '(' :: (opening.1 ++ inner.text ++ closing.1 ++ [')'])
  | negative gap operand => '-' :: (gap.1 ++ operand.text)
  | factor only => only.text
  | scale left before op behind right =>
    left.text ++ (before.1 ++ op.operator.symbol.toList ++ behind.1 ++ right.text)
  | term only => only.text
  | shift left before op behind right =>
    left.text ++ (before.1 ++ op.operator.symbol.toList ++ behind.1 ++ right.text)

/-- The exact value of a formula, unless it divides by zero. -/
def value? {rank : Rank} : Formula rank → Option Int
  | numeral n => some n.value
  | group _ inner _ => inner.value?
  | negative _ operand => operand.value?.map fun n => -n
  | factor only => only.value?
  | scale left _ op _ right => left.value?.bind fun a => right.value?.bind fun b => op.value? a b
  | term only => only.value?
  | shift left _ op _ right =>
    left.value?.bind fun a => right.value?.map fun b => op.value a b

/-- Every numeral and every intermediate value fits into 64 bits, nothing is divided by zero, and
the least integer is not divided by minus one. -/
def Fits {rank : Rank} : Formula rank → Prop
  | numeral n => n.value < 2 ^ 63
  | group _ inner _ => inner.Fits
  | negative gap operand => operand.Fits ∧ Within (negative gap operand).value?
  | factor only => only.Fits
  | scale left before op behind right =>
    left.Fits ∧ right.Fits ∧ op.Divides left.value? right.value? ∧
      Within (scale left before op behind right).value?
  | term only => only.Fits
  | shift left before op behind right =>
    left.Fits ∧ right.Fits ∧ Within (shift left before op behind right).value?

instance decidableFits {rank : Rank} : (e : Formula rank) → Decidable e.Fits
  | numeral n => inferInstanceAs (Decidable (n.value < 2 ^ 63))
  | group _ inner _ => decidableFits inner
  | negative gap operand =>
    @instDecidableAnd _ (Within (negative gap operand).value?) (decidableFits operand)
      inferInstance
  | factor only => decidableFits only
  | scale left before op behind right =>
    @instDecidableAnd _ _ (decidableFits left) (@instDecidableAnd _
      (op.Divides left.value? right.value? ∧ Within (scale left before op behind right).value?)
      (decidableFits right) inferInstance)
  | term only => decidableFits only
  | shift left before op behind right =>
    @instDecidableAnd _ _ (decidableFits left) (@instDecidableAnd _
      (Within (shift left before op behind right).value?) (decidableFits right) inferInstance)

/-- What the operators on 64 bit integers make of a formula. -/
def computed? {rank : Rank} : Formula rank → Option Int64
  | numeral n => Value.int64? n.value
  | group _ inner _ => inner.computed?
  | negative _ operand =>
    operand.computed?.bind fun i => (Operator.negate.applyUnary (.int i)).integer?
  | factor only => only.computed?
  | scale left _ op _ right =>
    left.computed?.bind fun a => right.computed?.bind fun b => op.computed? a b
  | term only => only.computed?
  | shift left _ op _ right =>
    left.computed?.bind fun a => right.computed?.bind fun b => op.computed? a b

end Formula

section Results

variable {op : Operator} {a b i : Int64} {n : Int}

theorem int64?_of_within (low : -2 ^ 63 ≤ n) (high : n < 2 ^ 63) :
    Value.int64? n = some (Int64.ofInt n) := by
  unfold Value.int64?
  rw [Int64.toInt_minValue, Int64.toInt_maxValue, if_pos (by omega)]

/-- A checked value is an integer exactly if it fits into 64 bits. -/
theorem integer?_checkedValue (op : Operator) (n : Int) :
    (op.checkedValue n).integer? = Value.int64? n := by
  unfold Operator.checkedValue
  cases Value.int64? n <;> rfl

theorem integer?_negate (i : Int64) :
    (Operator.negate.applyUnary (.int i)).integer? = Value.int64? (-i.toInt) :=
  integer?_checkedValue _ _

theorem toInt_ne_zero : b.toInt ≠ 0 ↔ b ≠ 0 := by
  rw [Ne, Ne, ← Int64.toInt_inj]
  rfl

namespace SumOperator

theorem computed?_eq (op : SumOperator) (a b : Int64) :
    op.computed? a b = Value.int64? (op.value a.toInt b.toInt) := by
  cases op <;> exact integer?_checkedValue _ _

end SumOperator

namespace TermOperator

theorem computed?_times : times.computed? a b = Value.int64? (a.toInt * b.toInt) :=
  integer?_checkedValue _ _

theorem computed?_quotient : quotient.computed? a b =
    if b = 0 then none else Value.int64? (a.toInt.tdiv b.toInt) := by
  show (if b = 0 then _ else Operator.divide.checkedValue (a.toInt.tdiv b.toInt)).integer? = _
  split
  · rfl
  · exact integer?_checkedValue _ _

theorem computed?_remainder : remainder.computed? a b =
    if b = 0 ∨ Value.int64? (a.toInt.tdiv b.toInt) = none then none
    else Value.int64? (a.toInt.tmod b.toInt) := by
  show (if b = 0 then _ else if (Value.int64? (a.toInt.tdiv b.toInt)).isNone then _ else
    Operator.modulo.checkedValue (a.toInt.tmod b.toInt)).integer? = _
  by_cases zero : b = 0
  · rw [if_pos zero, if_pos (.inl zero)]
    rfl
  · by_cases wide : Value.int64? (a.toInt.tdiv b.toInt) = none
    · rw [if_neg zero, if_pos (by rw [wide]; rfl), if_pos (.inr wide)]
      rfl
    · rw [if_neg zero, if_neg (by simpa using wide),
        if_neg fun either => either.elim zero wide]
      exact integer?_checkedValue _ _

/-- What is computed is exact. -/
theorem exact_of_computed {op : TermOperator} (h : op.computed? a b = some i) :
    op.value? a.toInt b.toInt = some i.toInt := by
  cases op with
  | times =>
    rw [computed?_times] at h
    simp only [value?, Value.toInt_of_int64? h]
  | quotient =>
    rw [computed?_quotient] at h
    split at h
    · cases h
    · rename_i nonzero
      simp only [value?, Value.toInt_of_int64? h, if_neg (toInt_ne_zero.mpr nonzero)]
  | remainder =>
    rw [computed?_remainder] at h
    split at h
    · cases h
    · rename_i other
      have nonzero : b ≠ 0 := fun zero => other (.inl zero)
      simp only [value?, Value.toInt_of_int64? h, if_neg (toInt_ne_zero.mpr nonzero)]

/-- A quotient of 64 bit integers fits into 64 bits but for one. -/
theorem tdiv_within (nonzero : b ≠ 0) (other : ¬(a.toInt = -2 ^ 63 ∧ b.toInt = -1)) :
    -2 ^ 63 ≤ a.toInt.tdiv b.toInt ∧ a.toInt.tdiv b.toInt < 2 ^ 63 := by
  have low := a.le_toInt
  have high := a.toInt_lt
  have some : b.toInt ≠ 0 := toInt_ne_zero.mpr nonzero
  by_cases one : b.toInt.natAbs = 1
  · rcases (show b.toInt = 1 ∨ b.toInt = -1 by omega) with eq | eq
    · rw [eq, Int.tdiv_one]
      exact ⟨low, high⟩
    · rw [eq, Int.tdiv_neg, Int.tdiv_one]
      omega
  · have size : (a.toInt.tdiv b.toInt).natAbs = a.toInt.natAbs / b.toInt.natAbs :=
      Int.natAbs_tdiv _ _
    have half : a.toInt.natAbs / b.toInt.natAbs ≤ a.toInt.natAbs / 2 :=
      Nat.div_le_div_left (by omega) (by omega)
    omega

/-- What fits is computed. -/
theorem computed_of_within {op : TermOperator} (within : Within (op.value? a.toInt b.toInt))
    (divides : op.Divides (some a.toInt) (some b.toInt)) : ∃ i, op.computed? a b = some i := by
  obtain ⟨n, value, low, high⟩ := within
  have fits := int64?_of_within low high
  cases op with
  | times =>
    cases value
    exact ⟨_, computed?_times.trans fits⟩
  | quotient =>
    simp only [value?] at value
    split at value
    · cases value
    · rename_i nonzero
      cases value
      exact ⟨_, computed?_quotient.trans (by rw [if_neg (toInt_ne_zero.mp nonzero), fits])⟩
  | remainder =>
    simp only [value?] at value
    split at value
    · cases value
    · rename_i nonzero
      cases value
      have nonzero' : b ≠ 0 := toInt_ne_zero.mp nonzero
      have other : ¬(a.toInt = -2 ^ 63 ∧ b.toInt = -1) := by
        rcases divides with times | other
        · cases times
        · simpa using other
      have quotient := tdiv_within nonzero' other
      rw [computed?_remainder, int64?_of_within quotient.1 quotient.2, fits]
      exact ⟨_, if_neg (by simp [nonzero'])⟩

end TermOperator

end Results

namespace Formula

variable {rank : Rank}

/-- What is computed of a formula is its exact value. -/
theorem exact_of_computed {e : Formula rank} {i : Int64} (h : e.computed? = some i) :
    e.value? = some i.toInt := by
  induction e generalizing i with
  | numeral n => exact congrArg some (Value.toInt_of_int64? h).symm
  | group _ inner _ ih => exact ih h
  | negative _ operand ih =>
    obtain ⟨a, computed, negated⟩ := Option.bind_eq_some_iff.mp h
    rw [integer?_negate] at negated
    rw [value?, ih computed, Value.toInt_of_int64? negated]
    rfl
  | factor only ih => exact ih h
  | scale left _ op _ right ihl ihr =>
    obtain ⟨a, computed, rest⟩ := Option.bind_eq_some_iff.mp h
    obtain ⟨b, computed', made⟩ := Option.bind_eq_some_iff.mp rest
    rw [value?, ihl computed, ihr computed']
    exact TermOperator.exact_of_computed made
  | term only ih => exact ih h
  | shift left _ op _ right ihl ihr =>
    obtain ⟨a, computed, rest⟩ := Option.bind_eq_some_iff.mp h
    obtain ⟨b, computed', made⟩ := Option.bind_eq_some_iff.mp rest
    rw [SumOperator.computed?_eq] at made
    rw [value?, ihl computed, ihr computed', Value.toInt_of_int64? made]
    rfl

/-- A formula that fits is computed. -/
theorem computed_of_fits {e : Formula rank} (h : e.Fits) : ∃ i, e.computed? = some i := by
  induction e with
  | numeral n => exact ⟨_, int64?_of_within (by omega) (by exact_mod_cast h)⟩
  | group _ inner _ ih => exact ih h
  | negative _ operand ih =>
    obtain ⟨inner, n, value, low, high⟩ := h
    obtain ⟨i, computed⟩ := ih inner
    rw [value?, exact_of_computed computed] at value
    cases value
    refine ⟨Int64.ofInt (-i.toInt), ?_⟩
    rw [computed?, computed, Option.bind_some, integer?_negate, int64?_of_within low high]
  | factor only ih => exact ih h
  | scale left _ op _ right ihl ihr =>
    obtain ⟨hl, hr, divides, within⟩ := h
    obtain ⟨a, computed⟩ := ihl hl
    obtain ⟨b, computed'⟩ := ihr hr
    rw [exact_of_computed computed, exact_of_computed computed'] at divides
    rw [value?, exact_of_computed computed, exact_of_computed computed'] at within
    rw [computed?, computed, computed']
    exact TermOperator.computed_of_within within divides
  | term only ih => exact ih h
  | shift left _ op _ right ihl ihr =>
    obtain ⟨hl, hr, n, value, low, high⟩ := h
    obtain ⟨a, computed⟩ := ihl hl
    obtain ⟨b, computed'⟩ := ihr hr
    rw [value?, exact_of_computed computed, exact_of_computed computed'] at value
    cases value
    rw [computed?, computed, computed']
    exact ⟨_, (SumOperator.computed?_eq op a b).trans (int64?_of_within low high)⟩

end Formula

end Stencil
