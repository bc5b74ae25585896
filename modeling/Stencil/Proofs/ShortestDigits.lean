import Mathlib.Data.Bool.AllAny
import Stencil.Double.Text
import Stencil.Proofs.NearestDouble

/-!
# The shortest decimal reads back

Among the decimal grids from the one with a single digit on, the one with seventeen digits at the
latest has a point in the interval of fractions that are read as a double. So the search ends at a
point of the interval, and what is printed is that point.
-/

namespace Stencil.Double

/-- The magnitude as a fraction. -/
def Binary.value (b : Binary) : ℚ := b.mantissa * 2 ^ b.exponent

theorem Binary.value_eq (b : Binary) : b.value = b.numerator / b.denominator := by
  unfold value numerator denominator
  rw [show (2 : ℚ) ^ b.exponent = _ from zpow_eq_div 2 (by omega) b.exponent]
  push_cast [Nat.pow_eq]
  rw [mul_div_assoc]

/-- A grid point as a fraction. -/
def gridPoint (grid : Int) (t : Nat) : ℚ := t * 10 ^ grid

namespace Reach

variable {b : Binary} {grid : Int} {t : Nat}

/-- The ends of the interval as fractions. -/
theorem ends (positive : 0 < b.mantissa) :
    ((ofBinary b).low : ℚ) = (b.mantissa - b.below) * 2 ^ b.exponent * (ofBinary b).den ∧
      ((ofBinary b).value : ℚ) = b.value * (ofBinary b).den ∧
      ((ofBinary b).high : ℚ) = (b.mantissa + 1 / 2) * 2 ^ b.exponent * (ofBinary b).den := by
  have unit : (4 : ℚ) * 2 ^ (b.exponent - 2) = 2 ^ b.exponent := by
    rw [zpow_sub₀ (by norm_num)]
    norm_num
    ring
  have scale : (2 : ℚ) ^ (b.exponent - 2) * 2 ^ (2 - b.exponent).toNat =
      2 ^ (b.exponent - 2).toNat := by
    rw [show (2 : ℚ) ^ (b.exponent - 2) = _ from zpow_eq_div 2 (by omega) _,
      show -(b.exponent - 2) = 2 - b.exponent by omega]
    push_cast
    rw [div_mul_cancel₀]
    positivity
  unfold ofBinary Binary.value
  simp only [Nat.pow_eq]
  rw [← unit]
  refine ⟨?_, ?_, ?_⟩
  · by_cases narrow : b.narrow
    · rw [b.below_of_narrow narrow, if_pos (show _ ∧ _ from narrow), Nat.cast_mul,
        Nat.cast_sub (by omega)]
      push_cast
      rw [← scale]
      ring
    · rw [b.below_of_not_narrow narrow, if_neg (show ¬(_ ∧ _) from narrow), Nat.cast_mul,
        Nat.cast_sub (by omega)]
      push_cast
      rw [← scale]
      ring
  · push_cast
    rw [← scale]
    ring
  · push_cast
    rw [← scale]
    ring

theorem den_pos (b : Binary) : (0 : ℚ) < (ofBinary b).den := by
  unfold ofBinary
  push_cast [Nat.pow_eq]
  positivity

theorem gridPoint_scaled (grid : Int) (t : Nat) :
    gridPoint grid t * 10 ^ (-grid).toNat = t * 10 ^ grid.toNat := by
  unfold gridPoint
  rw [show (10 : ℚ) ^ grid = _ from zpow_eq_div 10 (by omega) grid]
  push_cast
  field_simp

/-- A grid point is in the interval if the fraction is. -/
theorem contains_iff (positive : 0 < b.mantissa) : (ofBinary b).contains grid t = true ↔
    if b.mantissa % 2 = 0 then
      (b.mantissa - b.below) * 2 ^ b.exponent ≤ gridPoint grid t ∧
        gridPoint grid t ≤ (b.mantissa + 1 / 2) * 2 ^ b.exponent
    else
      (b.mantissa - b.below) * 2 ^ b.exponent < gridPoint grid t ∧
        gridPoint grid t < (b.mantissa + 1 / 2) * 2 ^ b.exponent := by
  obtain ⟨low, _, high⟩ := ends positive
  have both : 0 < ((ofBinary b).den : ℚ) * 10 ^ (-grid).toNat := by
    have := den_pos b
    positivity
  have point : ((t * Nat.pow 10 grid.toNat * (ofBinary b).den : Nat) : ℚ) =
      gridPoint grid t * ((ofBinary b).den * 10 ^ (-grid).toNat) := by
    push_cast [Nat.pow_eq]
    rw [← gridPoint_scaled]
    ring
  have lower : (((ofBinary b).low * Nat.pow 10 (-grid).toNat : Nat) : ℚ) =
      (b.mantissa - b.below) * 2 ^ b.exponent * ((ofBinary b).den * 10 ^ (-grid).toNat) := by
    push_cast [Nat.pow_eq]
    rw [low]
    ring
  have upper : (((ofBinary b).high * Nat.pow 10 (-grid).toNat : Nat) : ℚ) =
      (b.mantissa + 1 / 2) * 2 ^ b.exponent * ((ofBinary b).den * 10 ^ (-grid).toNat) := by
    push_cast [Nat.pow_eq]
    rw [high]
    ring
  unfold contains
  dsimp only
  rw [show (ofBinary b).closed = decide (b.mantissa % 2 = 0) from rfl]
  by_cases even : b.mantissa % 2 = 0
  · rw [if_pos (decide_eq_true even), if_pos even, Bool.and_eq_true, decide_eq_true_iff,
      decide_eq_true_iff, ← Nat.cast_le (α := ℚ), ← Nat.cast_le (α := ℚ), point, lower, upper,
      mul_le_mul_iff_left₀ both, mul_le_mul_iff_left₀ both]
  · rw [if_neg (by simpa using even), if_neg even, Bool.and_eq_true, decide_eq_true_iff,
      decide_eq_true_iff, ← Nat.cast_lt (α := ℚ), ← Nat.cast_lt (α := ℚ), point, lower, upper,
      mul_lt_mul_iff_left₀ both, mul_lt_mul_iff_left₀ both]

theorem near_of_contains (positive : 0 < b.mantissa)
    (h : (ofBinary b).contains grid t = true) : b.Near (gridPoint grid t) := by
  rw [contains_iff positive] at h
  split at h
  · rename_i even
    exact ⟨h.1, h.2, fun _ => even, fun _ => even⟩
  · exact ⟨h.1.le, h.2.le, fun tie => absurd tie h.1.ne, fun tie => absurd tie h.2.ne⟩

theorem contains_of_inside (positive : 0 < b.mantissa)
    (low : (b.mantissa - b.below) * 2 ^ b.exponent < gridPoint grid t)
    (high : gridPoint grid t < (b.mantissa + 1 / 2) * 2 ^ b.exponent) :
    (ofBinary b).contains grid t = true := by
  rw [contains_iff positive]
  split
  · exact ⟨low.le, high.le⟩
  · exact ⟨low, high⟩

theorem contains_of_pick {r : Reach} {up : Nat → Bool} (h : r.pick up grid = some t) :
    r.contains grid t = true := by
  unfold pick at h
  dsimp only at h
  split at h
  · rename_i lower _
    cases h
    exact lower
  · rename_i _ upper
    cases h
    exact upper
  · rename_i lower upper
    split at h
    · cases h
      exact lower
    · split at h
      · cases h
        exact upper
      · cases h
        split
        · exact upper
        · exact lower
  · cases h

/-- The search ends at a point of the interval if some grid on its way has one. -/
theorem contains_of_search {r : Reach} {up : Nat → Bool} {count : Nat} {grid : Int}
    (h : ∃ i : Nat, i < count ∧ (r.pick up (grid - i)).isSome = true) :
    r.contains (r.search up count grid).2 (r.search up count grid).1 = true := by
  induction count generalizing grid with
  | zero =>
    obtain ⟨i, less, _⟩ := h
    omega
  | succ count ih =>
    simp only [search]
    split
    · rename_i t found
      exact contains_of_pick found
    · rename_i none
      obtain ⟨i, less, found⟩ := h
      cases i with
      | zero =>
        rw [Nat.cast_zero, sub_zero, none] at found
        cases found
      | succ i =>
        refine ih ⟨i, by omega, ?_⟩
        rwa [show grid - 1 - (i : Int) = grid - ((i + 1 : Nat) : Int) by push_cast; omega]

/-- The two points of a grid around the value. -/
theorem gridPoint_floor (positive : 0 < b.mantissa) (grid : Int) :
    let floor := (ofBinary b).value * Nat.pow 10 (-grid).toNat /
      ((ofBinary b).den * Nat.pow 10 grid.toNat)
    gridPoint grid floor ≤ b.value ∧ b.value < gridPoint grid (floor + 1) := by
  obtain ⟨_, value, _⟩ := ends positive
  have den := den_pos b
  have step : (0 : ℚ) < 10 ^ grid := by positivity
  have unit : (0 : ℚ) < (ofBinary b).den * 10 ^ grid.toNat := by positivity
  have quotient : (((ofBinary b).value * Nat.pow 10 (-grid).toNat : Nat) : ℚ) /
      ((ofBinary b).den * Nat.pow 10 grid.toNat : Nat) = b.value / 10 ^ grid := by
    rw [show (10 : ℚ) ^ grid = _ from zpow_eq_div 10 (by omega) grid]
    push_cast [Nat.pow_eq]
    rw [value]
    field_simp
  have natural : 0 < (ofBinary b).den * Nat.pow 10 grid.toNat := by
    rw [← Nat.cast_pos (α := ℚ)]
    push_cast [Nat.pow_eq]
    exact unit
  dsimp only
  generalize (ofBinary b).value * Nat.pow 10 (-grid).toNat = scaled at *
  generalize (ofBinary b).den * Nat.pow 10 grid.toNat = whole at *
  have wholePos : (0 : ℚ) < whole := by exact_mod_cast natural
  unfold gridPoint
  rw [← le_div_iff₀ step, ← div_lt_iff₀ step, ← quotient, le_div_iff₀ wholePos,
    div_lt_iff₀ wholePos]
  constructor
  · exact_mod_cast Nat.div_mul_le_self scaled whole
  · have next := Nat.lt_mul_div_succ scaled natural
    rw [Nat.mul_comm] at next
    exact_mod_cast next

/-- A grid whose unit is less than the interval has a point in it. -/
theorem pick_isSome {up : Nat → Bool} (positive : 0 < b.mantissa)
    (fine : (10 : ℚ) ^ grid < (b.below + 1 / 2) * 2 ^ b.exponent) :
    ((ofBinary b).pick up grid).isSome = true := by
  obtain ⟨under, above⟩ := gridPoint_floor positive grid
  have unit : (0 : ℚ) < 2 ^ b.exponent := by positivity
  have belowPos : 0 < b.below := by
    unfold Binary.below
    split <;> norm_num
  unfold pick
  dsimp only
  generalize (ofBinary b).value * Nat.pow 10 (-grid).toNat /
    ((ofBinary b).den * Nat.pow 10 grid.toNat) = floor at *
  have next : gridPoint grid (floor + 1) = gridPoint grid floor + 10 ^ grid := by
    unfold gridPoint
    push_cast
    ring
  have inside : (ofBinary b).contains grid floor = true ∨
      (ofBinary b).contains grid (floor + 1) = true := by
    unfold Binary.value at under above
    by_cases close : (b.mantissa - b.below) * 2 ^ b.exponent < gridPoint grid floor
    · refine .inl (contains_of_inside positive close ?_)
      have : (b.mantissa : ℚ) * 2 ^ b.exponent < (b.mantissa + 1 / 2) * 2 ^ b.exponent :=
        mul_lt_mul_of_pos_right (by linarith) unit
      linarith
    · refine .inr (contains_of_inside positive ?_ ?_)
      · have : (b.mantissa - b.below) * 2 ^ b.exponent < b.mantissa * 2 ^ b.exponent :=
          mul_lt_mul_of_pos_right (by linarith) unit
        linarith
      · have split : ((b.mantissa : ℚ) - b.below) * 2 ^ b.exponent +
            (b.below + 1 / 2) * 2 ^ b.exponent = (b.mantissa + 1 / 2) * 2 ^ b.exponent := by ring
        linarith
  split
  · rfl
  · rfl
  · split
    · rfl
    · split <;> rfl
  · rename_i lower upper
    rw [lower, upper] at inside
    rcases inside with h | h <;> cases h

end Reach

/-- A positive fraction is at least the unit of its first digit. -/
theorem le_of_decimalPlace {num den : Nat} (hnum : 0 < num) (hden : 0 < den) :
    (10 : ℚ) ^ (decimalPlace num den - 1) ≤ num / den := by
  have positive : (0 : ℚ) < den := by exact_mod_cast hden
  have positive' : (0 : ℚ) < num := by exact_mod_cast hnum
  have bounds (n : Nat) (hn : 0 < n) :
      10 ^ (decimalLength n - 1) ≤ n ∧ n < 10 ^ decimalLength n ∧ 0 < decimalLength n := by
    have some : 0 < decimalLength n := Nat.length_toDigits_pos
    refine ⟨?_, (Nat.length_toDigits_le_iff (by omega) some).mp (Nat.le_refl _), some⟩
    rcases Nat.eq_or_lt_of_le some with one | more
    · rw [← one]
      exact hn
    · by_contra less
      have short := (Nat.length_toDigits_le_iff (b := 10) (by omega)
        (by omega : 0 < decimalLength n - 1)).mpr (Nat.lt_of_not_le less)
      have same : (Nat.toDigits 10 n).length = decimalLength n := rfl
      omega
  unfold decimalPlace
  split
  · rename_i large
    obtain ⟨low, _, some⟩ := bounds (num / den) (Nat.div_pos large hden)
    rw [show ((decimalLength (num / den) : Int) - 1) = ((decimalLength (num / den) - 1 : Nat) : Int)
      by omega, zpow_natCast]
    rw [le_div_iff₀ positive]
    exact_mod_cast Nat.le_trans (Nat.mul_le_mul_right den low) (Nat.div_mul_le_self num den)
  · rename_i small
    obtain ⟨_, high, some⟩ := bounds (den / num) (Nat.div_pos (by omega) hnum)
    dsimp only
    split
    · rename_i enough
      rw [show 2 - (decimalLength (den / num) : Int) - 1 =
        -((decimalLength (den / num) - 1 : Nat) : Int) by omega, zpow_neg, zpow_natCast,
        le_div_iff₀ positive, inv_mul_le_iff₀ (by positivity), mul_comm]
      exact_mod_cast enough
    · rw [show 1 - (decimalLength (den / num) : Int) - 1 =
          -(decimalLength (den / num) : Int) by omega,
        zpow_neg, zpow_natCast, le_div_iff₀ positive, inv_mul_le_iff₀ (by positivity), mul_comm]
      have less : den < num * 10 ^ decimalLength (den / num) := by
        rw [Nat.mul_comm]
        exact (Nat.div_lt_iff_lt_mul hnum).mp high
      exact_mod_cast less.le

/-- What the search finds is read as the magnitude. -/
theorem near_of_shortest (up : Nat → Bool) {b : Binary} (canonical : b.Canonical) :
    let found := (Reach.ofBinary b).search up 17 (decimalPlace b.numerator b.denominator - 1)
    b.Near (gridPoint found.2 found.1) := by
  have unit : (0 : ℚ) < 2 ^ b.exponent := by positivity
  have numerator : 0 < b.numerator := Nat.mul_pos canonical.positive (Nat.two_pow_pos _)
  have first := le_of_decimalPlace numerator b.denominator_pos
  rw [← Binary.value_eq] at first
  refine Reach.near_of_contains canonical.positive (Reach.contains_of_search ⟨16, by omega, ?_⟩)
  refine Reach.pick_isSome canonical.positive ?_
  -- the unit of the seventeenth digit against the unit of the last place
  have fine : (10 : ℚ) ^ (decimalPlace b.numerator b.denominator - 1 - (16 : Nat)) * 10 ^ 16 ≤
      b.value := by
    rw [zpow_sub₀ (by norm_num), show (10 : ℚ) ^ ((16 : Nat) : Int) = 10 ^ 16 from zpow_natCast _ _,
      div_mul_cancel₀ _ (by norm_num)]
    exact first
  have wide : b.value < (b.below + 1 / 2) * 2 ^ b.exponent * 10 ^ 16 := by
    unfold Binary.value
    rw [mul_right_comm]
    refine mul_lt_mul_of_pos_right ?_ unit
    by_cases narrow : b.narrow
    · rw [b.below_of_narrow narrow, narrow.1, show leastNormal = 2 ^ 52 from rfl]
      norm_num
    · rw [b.below_of_not_narrow narrow]
      have short : (b.mantissa : ℚ) < 2 ^ 53 := by exact_mod_cast canonical.short
      refine lt_trans short ?_
      norm_num
  exact lt_of_mul_lt_mul_right (lt_of_le_of_lt fine wide) (by norm_num)

/-- The fraction that a decimal stands for. -/
def Decimal.value (d : Decimal) : ℚ :=
  Nat.ofDigitChars 10 d.digits 0 * 10 ^ (d.point - d.digits.length)

theorem eq_dropZeros_append (digits : List Char) :
    ∃ count, digits = dropZeros digits ++ List.replicate count '0' := by
  refine ⟨(digits.reverse.takeWhile (· == '0')).length, ?_⟩
  have zeros : ∀ c ∈ digits.reverse.takeWhile (· == '0'), c = '0' := by
    intro c mem
    have := List.all_eq_true.mp List.all_takeWhile c mem
    simpa using this
  have parts := congrArg List.reverse
    (List.takeWhile_append_dropWhile (p := (· == '0')) (l := digits.reverse))
  rw [List.reverse_append, List.reverse_reverse, List.eq_replicate_of_mem zeros,
    List.reverse_replicate] at parts
  exact parts.symm

/-- The shortest decimal stands for what the search found. -/
theorem value_shortest (up : Nat → Bool) (b : Binary) :
    let found := (Reach.ofBinary b).search up 17 (decimalPlace b.numerator b.denominator - 1)
    (shortest up b).value = gridPoint found.2 found.1 := by
  dsimp only
  unfold shortest
  dsimp only
  generalize (Reach.ofBinary b).search up 17 (decimalPlace b.numerator b.denominator - 1) = found
  obtain ⟨t, grid⟩ := found
  dsimp only
  obtain ⟨count, split⟩ := eq_dropZeros_append (Nat.toDigits 10 t)
  have length := congrArg List.length split
  have digits := congrArg (fun ds => Nat.ofDigitChars 10 ds 0) split
  simp only [Nat.ofDigitChars_ten_toDigits, Nat.ofDigitChars_append,
    Nat.ofDigitChars_replicate_zero] at digits
  rw [List.length_append, List.length_replicate] at length
  unfold Decimal.value gridPoint
  dsimp only
  generalize dropZeros (Nat.toDigits 10 t) = kept at *
  rw [length, digits]
  push_cast
  rw [show grid + ((kept.length : Int) + count) - kept.length = count + grid by omega,
    zpow_add₀ (by norm_num), zpow_natCast]
  ring

theorem isDigit_shortest (up : Nat → Bool) (b : Binary) :
    ∀ c ∈ (shortest up b).digits, c.isDigit = true := by
  intro c mem
  unfold shortest at mem
  dsimp only at mem
  obtain ⟨count, split⟩ := eq_dropZeros_append (Nat.toDigits 10
    ((Reach.ofBinary b).search up 17 (decimalPlace b.numerator b.denominator - 1)).1)
  have inside := List.mem_append_left (List.replicate count '0') mem
  rw [← split] at inside
  exact Nat.isDigit_of_mem_toDigits (by omega) (by omega) inside

/-- Digits around a point. -/
structure Pointed (text whole fraction : List Char) : Prop where
  text : text = whole ++ '.' :: fraction
  digits : ∀ c ∈ whole ++ fraction, c.isDigit = true
  whole : whole ≠ []
  fraction : fraction ≠ []

/-- A text of digits around a point has the value of a decimal. -/
def Decimal.IsPointed (d : Decimal) (text : List Char) : Prop :=
  ∃ whole fraction, Pointed text whole fraction ∧
    (Nat.ofDigitChars 10 (whole ++ fraction) 0 : ℚ) / 10 ^ fraction.length = d.value

theorem isDigit_of_mem_zeros {c : Char} {count : Nat} (mem : c ∈ List.replicate count '0') :
    c.isDigit = true := by
  rw [List.eq_of_mem_replicate mem]
  decide

/-- The digits of a decimal, with as many of them behind the point as its exponent says. -/
theorem Decimal.value_eq_div {d : Decimal} {behind : Nat}
    (place : d.point - d.digits.length = -(behind : Int)) :
    (Nat.ofDigitChars 10 d.digits 0 : ℚ) / 10 ^ behind = d.value := by
  rw [value, place, zpow_neg, zpow_natCast, div_eq_mul_inv]

section Layouts

variable {d : Decimal}

/-- All digits stand behind the point, and zeros are filled in after it. -/
theorem Decimal.isPointed_of_low (digits : ∀ c ∈ d.digits, c.isDigit = true) (some : d.digits ≠ [])
    (low : d.point ≤ 0) : d.IsPointed d.positional := by
  refine ⟨['0'], List.replicate (-d.point).toNat '0' ++ d.digits, ⟨?_, ?_, by simp, ?_⟩, ?_⟩
  · simp [positional, low]
  · intro c mem
    simp only [List.mem_append, List.mem_singleton] at mem
    rcases mem with rfl | mem | mem
    · decide
    · exact isDigit_of_mem_zeros mem
    · exact digits c mem
  · intro none
    exact some (List.append_eq_nil_iff.mp none).2
  · have plain :
        Nat.ofDigitChars 10 (['0'] ++ (List.replicate (-d.point).toNat '0' ++ d.digits)) 0 =
        Nat.ofDigitChars 10 d.digits 0 := by
      simp [Nat.ofDigitChars_append, Nat.ofDigitChars_cons]
    rw [plain]
    refine value_eq_div ?_
    rw [List.length_append, List.length_replicate]
    omega

/-- All digits stand in front of the point, and zeros are filled in before it. -/
theorem Decimal.isPointed_of_high (digits : ∀ c ∈ d.digits, c.isDigit = true)
    (some : d.digits ≠ []) (high : ¬d.point ≤ 0) (short : d.digits.length ≤ d.point.toNat) :
    d.IsPointed d.positional := by
  refine ⟨d.digits ++ List.replicate (d.point.toNat - d.digits.length) '0', ['0'],
    ⟨?_, ?_, ?_, by simp⟩, ?_⟩
  · simp [positional, high, List.take_of_length_le short, List.drop_of_length_le short]
  · intro c mem
    simp only [List.mem_append, List.mem_singleton] at mem
    rcases mem with (mem | mem) | rfl
    · exact digits c mem
    · exact isDigit_of_mem_zeros mem
    · decide
  · intro none
    exact some (List.append_eq_nil_iff.mp none).1
  · have padded : Nat.ofDigitChars 10
        (d.digits ++ List.replicate (d.point.toNat - d.digits.length) '0' ++ ['0']) 0 =
        10 * (10 ^ (d.point.toNat - d.digits.length) * Nat.ofDigitChars 10 d.digits 0) := by
      simp [Nat.ofDigitChars_append, Nat.ofDigitChars_cons]
    rw [padded, value, show d.point - (d.digits.length : Int) =
      ((d.point.toNat - d.digits.length : Nat) : Int) by omega, zpow_natCast]
    push_cast
    simp only [List.length_singleton, pow_one]
    ring

/-- The point stands between two digits. -/
theorem Decimal.isPointed_of_between (digits : ∀ c ∈ d.digits, c.isDigit = true)
    (high : ¬d.point ≤ 0) (long : d.point.toNat < d.digits.length) :
    d.IsPointed d.positional := by
  have front : (d.digits.take d.point.toNat).length = d.point.toNat := by
    rw [List.length_take]
    omega
  have rest : (d.digits.drop d.point.toNat).length = d.digits.length - d.point.toNat :=
    List.length_drop
  have nonempty : d.digits.drop d.point.toNat ≠ [] :=
    List.ne_nil_of_length_pos (by omega)
  refine ⟨d.digits.take d.point.toNat, d.digits.drop d.point.toNat,
    ⟨?_, ?_, List.ne_nil_of_length_pos (by omega), nonempty⟩, ?_⟩
  · unfold positional
    simp only [if_neg high, front, Nat.sub_self, List.replicate_zero, List.append_nil,
      List.isEmpty_eq_false_iff.mpr nonempty, Bool.false_eq_true, if_false]
  · rw [List.take_append_drop]
    exact digits
  · rw [List.take_append_drop, rest]
    exact value_eq_div (by omega)

/-- A decimal without exponent has digits on both sides of the point, and they make its value. -/
theorem Decimal.pointed (digits : ∀ c ∈ d.digits, c.isDigit = true) (some : d.digits ≠ []) :
    d.IsPointed d.positional := by
  by_cases low : d.point ≤ 0
  · exact isPointed_of_low digits some low
  rcases Nat.lt_or_ge d.point.toNat d.digits.length with long | short
  · exact isPointed_of_between digits low long
  · exact isPointed_of_high digits some low short

end Layouts

theorem canonical_ofFloat {x : Float} (finite : x.isFinite = true)
    (some : (Binary.ofFloat x).mantissa ≠ 0) : (Binary.ofFloat x).Canonical := by
  obtain ⟨short, least, _, normal⟩ := ofFloat_bounds finite
  exact ⟨Nat.pos_of_ne_zero some, short, least, normal⟩

/-- A finite double without sign, printed without exponent, reads back. -/
theorem ofDecimal_source {x : Float} (finite : x.isFinite = true)
    (positive : isNegative x = false) :
    ∃ whole fraction, Pointed (Layout.source.finite x).toList whole fraction ∧
      ofDecimal (Nat.ofDigitChars 10 (whole ++ fraction) 0) (-(fraction.length : Int)) = x := by
  have read (s n : Nat) : ofDecimal s (-(n : Int)) = nearest s (10 ^ n) := by
    unfold ofDecimal
    rw [show (-(n : Int)).toNat = 0 by omega, neg_neg, Int.toNat_natCast]
    simp only [Nat.pow_eq, pow_zero, mul_one]
  have text : (Layout.source.finite x).toList = Layout.source.magnitude (Binary.ofFloat x) := by
    unfold Layout.finite
    rw [positive]
    exact String.toList_ofList
  have back := toFloat_ofFloat finite positive
  rw [text]
  simp only [read]
  unfold Layout.magnitude
  by_cases zero : (Binary.ofFloat x).mantissa = 0
  · rw [if_pos zero]
    refine ⟨['0'], ['0'], ⟨rfl, List.all_iff_forall_prop.mp (by decide), by simp, by simp⟩, ?_⟩
    have least : (Binary.ofFloat x).exponent = -1074 := by
      obtain ⟨_, least, _, normal⟩ := ofFloat_bounds finite
      by_contra other
      have := normal (by omega)
      omega
    rw [← back, show Binary.ofFloat x = ⟨0, -1074⟩ from by rw [← zero, ← least]]
    decide +kernel
  · rw [if_neg zero]
    dsimp only
    rw [if_pos (show Layout.source.positional _ = true from rfl)]
    have canonical := canonical_ofFloat finite zero
    have near := near_of_shortest Layout.source.up canonical
    dsimp only at near
    rw [← value_shortest] at near
    have some : (shortest Layout.source.up (Binary.ofFloat x)).digits ≠ [] := by
      intro none
      have nothing : (shortest Layout.source.up (Binary.ofFloat x)).value = 0 := by
        unfold Decimal.value
        rw [none, Nat.ofDigitChars_nil, Nat.cast_zero, zero_mul]
      have low := near.low
      rw [nothing] at low
      have unit : (0 : ℚ) < 2 ^ (Binary.ofFloat x).exponent := by positivity
      have one : (1 : ℚ) ≤ (Binary.ofFloat x).mantissa := by exact_mod_cast canonical.positive
      have below := (Binary.ofFloat x).below_le
      have above : (0 : ℚ) < ((Binary.ofFloat x).mantissa - (Binary.ofFloat x).below) *
          2 ^ (Binary.ofFloat x).exponent := mul_pos (by linarith) unit
      linarith
    obtain ⟨whole, fraction, pointed, value⟩ :=
      Decimal.pointed (isDigit_shortest Layout.source.up (Binary.ofFloat x)) some
    refine ⟨whole, fraction, pointed, ?_⟩
    rw [← value] at near
    rw [nearest_eq canonical (Nat.pow_pos (by omega)) (by push_cast; exact near), back]

/-- A sign is printed before the rest. -/
theorem source_of_isNegative {x : Float} (finite : x.isFinite = true)
    (negative : isNegative x = true) :
    (Layout.source.finite x).toList = '-' :: (Layout.source.finite (-x)).toList := by
  unfold Layout.finite
  rw [isNegative_neg finite, ofFloat_neg finite, negative]
  simp

end Stencil.Double
