import Mathlib.Algebra.Order.Field.Power
import Mathlib.Algebra.Order.Field.Rat
import Mathlib.Tactic.FieldSimp
import Mathlib.Tactic.GCongr
import Mathlib.Tactic.Linarith
import Mathlib.Tactic.NormNum
import Mathlib.Tactic.Positivity
import Stencil.Proofs.DoubleBits

/-!
# The double nearest to a fraction

A fraction is read as the double whose magnitude is nearest to it. Here is the converse of that:
each fraction within half a unit of the last place of a magnitude is read as that magnitude. Below a
power of two the next double is only half as far away.
-/

namespace Stencil.Double

theorem zpow_eq_div (base : Nat) (positive : 0 < base) (n : Int) :
    (base : ℚ) ^ n = (base : ℚ) ^ n.toNat / (base : ℚ) ^ (-n).toNat := by
  have nonzero : (base : ℚ) ≠ 0 := by positivity
  rcases Int.le_total 0 n with h | h
  · rw [show (-n).toNat = 0 by omega, pow_zero, div_one, ← zpow_natCast, Int.toNat_of_nonneg h]
  · rw [show n.toNat = 0 by omega, pow_zero, one_div, ← zpow_natCast,
      Int.toNat_of_nonneg (by omega), ← zpow_neg, neg_neg]

/-- A quotient within a half of a natural is rounded to it, if a half away only to an even one. -/
theorem roundQuotient_eq {num den m : Nat} (positive : 0 < den)
    (low : 2 * (m * den) ≤ 2 * num + den) (high : 2 * num ≤ 2 * (m * den) + den)
    (lowTie : 2 * (m * den) = 2 * num + den → m % 2 = 0)
    (highTie : 2 * num = 2 * (m * den) + den → m % 2 = 0) : roundQuotient num den = m := by
  have whole := Nat.div_add_mod num den
  have rest := Nat.mod_lt num positive
  unfold roundQuotient
  dsimp only
  generalize num / den = floor at whole ⊢
  generalize num % den = part at whole rest ⊢
  rcases Nat.lt_trichotomy floor m with less | rfl | more
  · have next : m = floor + 1 := by
      by_contra other
      have far : floor + 2 ≤ m := by omega
      have product : (floor + 2) * den ≤ m * den := Nat.mul_le_mul_right den far
      have expand : (floor + 2) * den = den * floor + 2 * den := by ring
      omega
    subst next
    have expand : (floor + 1) * den = den * floor + den := by ring
    rw [expand] at low high lowTie highTie
    rw [if_pos]
    rcases Nat.lt_or_ge den (2 * part) with above | under
    · exact .inl above
    · refine .inr ⟨by omega, ?_⟩
      have even := lowTie (by omega)
      omega
  · have expand : floor * den = den * floor := Nat.mul_comm _ _
    rw [expand] at low high lowTie highTie
    rw [if_neg]
    rintro (above | ⟨half, odd⟩)
    · omega
    · have even := highTie (by omega)
      omega
  · have product : (m + 1) * den ≤ floor * den := Nat.mul_le_mul_right den more
    have expand : (m + 1) * den = m * den + den := by ring
    have same : floor * den = den * floor := Nat.mul_comm _ _
    omega

/-- The exponent of a positive fraction: its mantissa has 53 bits, or the exponent is least. -/
theorem mantissaExponent_spec {num den : Nat} (hnum : 0 < num) (hden : 0 < den) :
    ∃ exponent : Int, mantissaExponent num den = max exponent (-1074) ∧
      (2 : ℚ) ^ (52 + exponent) ≤ num / den ∧ (num : ℚ) / den < 2 ^ (53 + exponent) := by
  have positive : (0 : ℚ) < den := by exact_mod_cast hden
  have numLow : (2 : ℚ) ^ (num.log2 : Int) ≤ num := by
    rw [zpow_natCast]
    exact_mod_cast Nat.log2_self_le (Nat.ne_of_gt hnum)
  have numHigh : (num : ℚ) < 2 ^ ((num.log2 : Int) + 1) := by
    rw [← Nat.cast_succ, zpow_natCast]
    exact_mod_cast Nat.lt_log2_self
  have denLow : (2 : ℚ) ^ (den.log2 : Int) ≤ den := by
    rw [zpow_natCast]
    exact_mod_cast Nat.log2_self_le (Nat.ne_of_gt hden)
  have denHigh : (den : ℚ) < 2 ^ ((den.log2 : Int) + 1) := by
    rw [← Nat.cast_succ, zpow_natCast]
    exact_mod_cast Nat.lt_log2_self
  have two : (2 : ℚ) ≠ 0 := by norm_num
  unfold mantissaExponent
  dsimp only
  generalize guessed : (num.log2 : Int) - (den.log2 : Int) - 52 = guess
  have fits : leastNormal * (den * Nat.pow 2 guess.toNat) ≤ num * Nat.pow 2 (-guess).toNat ↔
      (2 : ℚ) ^ (52 + guess) ≤ num / den := by
    rw [zpow_add₀ two, show (2 : ℚ) ^ (52 : Int) = 2 ^ 52 from zpow_ofNat 2 52,
      show (2 : ℚ) ^ guess = _ from zpow_eq_div 2 (by omega) guess,
      le_div_iff₀ positive, mul_div_assoc', div_mul_eq_mul_div, div_le_iff₀ (by positivity),
      show leastNormal = 2 ^ 52 from rfl]
    rw [← Nat.cast_le (α := ℚ)]
    push_cast [Nat.pow_eq]
    rw [mul_comm (den : ℚ), mul_assoc]
    norm_num
  have above : (2 : ℚ) ^ (51 + guess) ≤ num / den := by
    rw [le_div_iff₀ positive]
    calc (2 : ℚ) ^ (51 + guess) * den ≤ 2 ^ (51 + guess) * 2 ^ ((den.log2 : Int) + 1) := by gcongr
      _ = 2 ^ (num.log2 : Int) := by
        rw [← zpow_add₀ two, show 51 + guess + ((den.log2 : Int) + 1) = num.log2 by omega]
      _ ≤ num := numLow
  have below : (num : ℚ) / den < 2 ^ (53 + guess) := by
    rw [div_lt_iff₀ positive]
    calc (num : ℚ) < 2 ^ ((num.log2 : Int) + 1) := numHigh
      _ = 2 ^ (53 + guess) * 2 ^ (den.log2 : Int) := by
        rw [← zpow_add₀ two, show 53 + guess + (den.log2 : Int) = num.log2 + 1 by omega]
      _ ≤ 2 ^ (53 + guess) * den := by gcongr
  by_cases fit : leastNormal * (den * Nat.pow 2 guess.toNat) ≤ num * Nat.pow 2 (-guess).toNat
  · rw [if_pos fit]
    exact ⟨guess, rfl, fits.mp fit, below⟩
  · rw [if_neg fit]
    refine ⟨guess - 1, rfl, ?_, ?_⟩
    · rwa [show (52 : Int) + (guess - 1) = 51 + guess by omega]
    · rw [show (53 : Int) + (guess - 1) = 52 + guess by omega]
      exact lt_of_not_ge fun h => fit (fits.mpr h)

/-- Whether the next lower magnitude is only half a unit away. -/
def Binary.narrow (b : Binary) : Prop := b.mantissa = leastNormal ∧ -1074 < b.exponent

instance (b : Binary) : Decidable b.narrow :=
  inferInstanceAs (Decidable (b.mantissa = leastNormal ∧ -1074 < b.exponent))

/-- A magnitude as a double has it. -/
structure Binary.Canonical (b : Binary) : Prop where
  positive : 0 < b.mantissa
  short : b.mantissa < 2 ^ 53
  least : -1074 ≤ b.exponent
  normal : -1074 < b.exponent → 2 ^ 52 ≤ b.mantissa

/-- How far below a magnitude a fraction can be to be read as it, in units of the last place. -/
def Binary.below (b : Binary) : ℚ := if b.narrow then 1 / 4 else 1 / 2

/-- A fraction is read as a magnitude. -/
structure Binary.Near (b : Binary) (q : ℚ) : Prop where
  low : (b.mantissa - b.below) * 2 ^ b.exponent ≤ q
  high : q ≤ (b.mantissa + 1 / 2) * 2 ^ b.exponent
  lowTie : (b.mantissa - b.below) * 2 ^ b.exponent = q → b.mantissa % 2 = 0
  highTie : q = (b.mantissa + 1 / 2) * 2 ^ b.exponent → b.mantissa % 2 = 0

theorem Binary.below_of_narrow (b : Binary) (h : b.narrow) : b.below = 1 / 4 := if_pos h

theorem Binary.below_of_not_narrow (b : Binary) (h : ¬b.narrow) : b.below = 1 / 2 := if_neg h

theorem Binary.below_le (b : Binary) : b.below ≤ 1 / 2 := by
  by_cases narrow : b.narrow
  · rw [b.below_of_narrow narrow]
    norm_num
  · rw [b.below_of_not_narrow narrow]

/-- A fraction over a power of two, as the quotient that is rounded. -/
theorem roundQuotient_scaled {num den m : Nat} {exponent : Int} (hden : 0 < den)
    (low : ((m : ℚ) - 1 / 2) * 2 ^ exponent ≤ num / den)
    (high : (num : ℚ) / den ≤ (m + 1 / 2) * 2 ^ exponent)
    (lowTie : ((m : ℚ) - 1 / 2) * 2 ^ exponent = num / den → m % 2 = 0)
    (highTie : (num : ℚ) / den = (m + 1 / 2) * 2 ^ exponent → m % 2 = 0) :
    roundQuotient (num * Nat.pow 2 (-exponent).toNat) (den * Nat.pow 2 exponent.toNat) = m := by
  simp only [Nat.pow_eq]
  have positive : (0 : ℚ) < den := by exact_mod_cast hden
  have scale : (2 : ℚ) ^ exponent = 2 ^ exponent.toNat / 2 ^ (-exponent).toNat :=
    zpow_eq_div 2 (by omega) exponent
  generalize exponent.toNat = up at *
  generalize (-exponent).toNat = down at *
  have upward : (0 : ℚ) < 2 ^ up := by positivity
  have downward : (0 : ℚ) < 2 ^ down := by positivity
  -- both sides over the common denominator
  have common (c : ℚ) : c * 2 ^ exponent * den * 2 ^ down = c * (den * 2 ^ up) := by
    rw [scale]
    field_simp
  have given : (num : ℚ) / den * den * 2 ^ down = num * 2 ^ down := by
    field_simp
  have both : 0 < (den : ℚ) * 2 ^ down := by positivity
  have lower : ((m : ℚ) - 1 / 2) * (den * 2 ^ up) ≤ num * 2 ^ down := by
    rw [← common, ← given, mul_assoc, mul_assoc _ (den : ℚ)]
    exact mul_le_mul_of_nonneg_right low both.le
  have upper : (num : ℚ) * 2 ^ down ≤ (m + 1 / 2) * (den * 2 ^ up) := by
    rw [← common, ← given, mul_assoc, mul_assoc _ (den : ℚ)]
    exact mul_le_mul_of_nonneg_right high both.le
  have lowerTie : ((m : ℚ) - 1 / 2) * (den * 2 ^ up) = num * 2 ^ down → m % 2 = 0 := by
    rw [← common, ← given, mul_assoc, mul_assoc _ (den : ℚ)]
    intro tie
    exact lowTie (mul_right_cancel₀ both.ne' tie)
  have upperTie : (num : ℚ) * 2 ^ down = (m + 1 / 2) * (den * 2 ^ up) → m % 2 = 0 := by
    rw [← common, ← given, mul_assoc, mul_assoc _ (den : ℚ)]
    intro tie
    exact highTie (mul_right_cancel₀ both.ne' tie)
  refine roundQuotient_eq (Nat.mul_pos hden (Nat.two_pow_pos _)) ?_ ?_ ?_ ?_
  · rw [← Nat.cast_le (α := ℚ)]
    push_cast
    linarith
  · rw [← Nat.cast_le (α := ℚ)]
    push_cast
    linarith
  · intro tie
    refine lowerTie ?_
    have tie' := congrArg (Nat.cast (R := ℚ)) tie
    push_cast at tie'
    linarith
  · intro tie
    refine upperTie ?_
    have tie' := congrArg (Nat.cast (R := ℚ)) tie
    push_cast at tie'
    linarith

theorem two_zpow_succ (n : Int) : (2 : ℚ) ^ (n + 1) = 2 * 2 ^ n := by
  rw [zpow_add_one₀ (by norm_num), mul_comm]

/-- A mantissa of 54 bits that is a power of two carries into the exponent. -/
theorem toFloat_carry {exponent : Int} (least : -1074 ≤ exponent) :
    Binary.toFloat ⟨2 ^ 53, exponent⟩ = Binary.toFloat ⟨2 ^ 52, exponent + 1⟩ := by
  have total : (exponent + 1074).toNat * leastNormal + 2 ^ 53 =
      (exponent + 1 + 1074).toNat * leastNormal + 2 ^ 52 := by
    rw [show leastNormal = 2 ^ 52 from rfl,
      show (exponent + 1 + 1074).toNat = (exponent + 1074).toNat + 1 by omega]
    omega
  unfold Binary.toFloat
  simp only [total]

theorem two_zpow_add (bits : Nat) (e : Int) : (2 : ℚ) ^ ((bits : Int) + e) = 2 ^ bits * 2 ^ e := by
  rw [zpow_add₀ (by norm_num), zpow_natCast]

/-- A fraction of fewer than 54 bits over an exponent has no larger one. -/
theorem exponent_le {q c : ℚ} {e exponent : Int} (fits : c < 2 ^ 53) (high : q ≤ c * 2 ^ e)
    (floor : (2 : ℚ) ^ (52 + exponent) ≤ q) : exponent ≤ e := by
  have unit : (0 : ℚ) < 2 ^ e := by positivity
  have order : (2 : ℚ) ^ (52 + exponent) < 2 ^ (53 + e) :=
    calc (2 : ℚ) ^ (52 + exponent) ≤ c * 2 ^ e := floor.trans high
      _ < 2 ^ 53 * 2 ^ e := mul_lt_mul_of_pos_right fits unit
      _ = 2 ^ (53 + e) := (two_zpow_add 53 e).symm
  have := (zpow_lt_zpow_iff_right₀ one_lt_two).mp order
  omega

/-- A fraction of at least 53 bits over an exponent has no smaller one. -/
theorem le_exponent {q c : ℚ} {e exponent : Int} (fills : 2 ^ 52 ≤ c) (low : c * 2 ^ e ≤ q)
    (ceiling : q < (2 : ℚ) ^ (53 + exponent)) : e ≤ exponent := by
  have unit : (0 : ℚ) < 2 ^ e := by positivity
  have order : (2 : ℚ) ^ (52 + e) < 2 ^ (53 + exponent) :=
    calc (2 : ℚ) ^ (52 + e) = 2 ^ 52 * 2 ^ e := two_zpow_add 52 e
      _ ≤ c * 2 ^ e := mul_le_mul_of_nonneg_right fills unit.le
      _ ≤ q := low
      _ < 2 ^ (53 + exponent) := ceiling
  have := (zpow_lt_zpow_iff_right₀ one_lt_two).mp order
  omega

/-- A fraction near a magnitude is read as it, if it has the exponent of the magnitude. -/
theorem nearest_of_exponent {num den : Nat} {b : Binary} (hnum : 0 < num) (hden : 0 < den)
    (near : b.Near (num / den)) (taken : mantissaExponent num den = b.exponent) :
    nearest num den = b.toFloat := by
  have unit : (0 : ℚ) < 2 ^ b.exponent := by positivity
  have wider : ((b.mantissa : ℚ) - 1 / 2) * 2 ^ b.exponent ≤
      (b.mantissa - b.below) * 2 ^ b.exponent :=
    mul_le_mul_of_nonneg_right (by linarith [b.below_le]) unit.le
  unfold nearest
  rw [if_neg (Nat.ne_of_gt hnum)]
  dsimp only
  rw [taken]
  have rounded := roundQuotient_scaled hden (wider.trans near.low) near.high
    (fun tie => near.lowTie (le_antisymm near.low (tie ▸ wider))) near.highTie
  rw [rounded]

/-- A fraction right below a power of two has an exponent that is one less, and its mantissa is
rounded up and carries. -/
theorem nearest_of_carry {num den : Nat} {e : Int} (hnum : 0 < num) (hden : 0 < den)
    (least : -1074 ≤ e) (taken : mantissaExponent num den = e)
    (low : (2 ^ 52 - 1 / 4 : ℚ) * 2 ^ (e + 1) ≤ num / den)
    (ceiling : (num : ℚ) / den < 2 ^ (53 + e)) :
    nearest num den = Binary.toFloat ⟨2 ^ 52, e + 1⟩ := by
  have unit : (0 : ℚ) < 2 ^ e := by positivity
  rw [two_zpow_succ] at low
  rw [show (53 : Int) = ((53 : Nat) : Int) from rfl, two_zpow_add] at ceiling
  have rounded : roundQuotient (num * Nat.pow 2 (-e).toNat) (den * Nat.pow 2 e.toNat) = 2 ^ 53 := by
    refine roundQuotient_scaled hden ?_ ?_ (fun _ => rfl) (fun _ => rfl)
    · push_cast
      linarith
    · push_cast
      linarith
  unfold nearest
  rw [if_neg (Nat.ne_of_gt hnum)]
  dsimp only
  rw [taken, rounded, toFloat_carry least]

/-- A fraction near a magnitude is not zero. -/
theorem Binary.Near.positive {num den : Nat} {b : Binary} (near : b.Near (num / den))
    (positive : 0 < b.mantissa) : 0 < num := by
  have one : (1 : ℚ) ≤ b.mantissa := by exact_mod_cast positive
  have above : (0 : ℚ) < (b.mantissa - b.below) * 2 ^ b.exponent :=
    mul_pos (by linarith [b.below_le]) (by positivity)
  refine Nat.pos_of_ne_zero ?_
  rintro rfl
  have low := near.low
  rw [Nat.cast_zero, zero_div] at low
  exact absurd low (not_le.mpr above)

/-- A fraction near a magnitude is read as the magnitude. -/
theorem nearest_eq {num den : Nat} {b : Binary} (canonical : b.Canonical) (hden : 0 < den)
    (near : b.Near (num / den)) : nearest num den = b.toFloat := by
  have hnum := near.positive canonical.positive
  obtain ⟨exponent, taken, floor, ceiling⟩ := mantissaExponent_spec hnum hden
  obtain ⟨m, e⟩ := b
  obtain ⟨-, short, least, normal⟩ := canonical
  dsimp only at short least normal
  have notAbove : exponent ≤ e := by
    have largest : (m : ℚ) + 1 ≤ 2 ^ 53 := by exact_mod_cast short
    exact exponent_le (by linarith) near.high floor
  by_cases same : max exponent (-1074) = e
  · exact nearest_of_exponent hnum hden near (taken.trans same)
  -- only right below a power of two the exponent is one less
  have above : -1074 < e := by omega
  have power : m = 2 ^ 52 := by
    by_contra other
    have large := normal above
    have more : ((2 ^ 52 + 1 : Nat) : ℚ) ≤ m := by exact_mod_cast (by omega : 2 ^ 52 + 1 ≤ m)
    push_cast at more
    have notBelow : e ≤ exponent :=
      le_exponent (by linarith [Binary.below_le ⟨m, e⟩]) near.low ceiling
    omega
  subst power
  have low := near.low
  rw [Binary.below_of_narrow _ ⟨rfl, above⟩] at low
  push_cast at low
  obtain ⟨n, rfl⟩ : ∃ n, e = n + 1 := ⟨e - 1, by omega⟩
  have notBelow : n ≤ exponent := by
    rw [two_zpow_succ, ← mul_assoc] at low
    exact le_exponent (by norm_num) low ceiling
  have under : exponent = n := by omega
  subst under
  exact nearest_of_carry hnum hden (by omega) (by omega) low ceiling

end Stencil.Double
