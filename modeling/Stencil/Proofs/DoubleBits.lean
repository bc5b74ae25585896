import Mathlib.Tactic.Ring
import Stencil.Double.Binary

/-!
# The bits of doubles

A double is its sign, an exponent of eleven bits and a mantissa of fifty-two. Taking a finite double
apart into a magnitude and putting it together again gives the double without its sign, and negation
changes nothing but the sign.
-/

namespace Stencil.Double

open Float.Model Float.Model.UnpackedFloat

variable {sign : Sign} {exponent : BitVec 11} {mantissa : BitVec 52}

theorem sign_packComponents :
    Sign.ofBitVec (unpackSign (packComponents Format.binary64 sign exponent mantissa)) = sign := by
  delta unpackSign
  simp only [packComponents, BitVec.extractLsb]
  rw [BitVec.extractLsb'_append_eq_of_le (by omega),
    BitVec.extractLsb'_append_eq_of_le (by omega)]
  cases sign <;> rfl

theorem toNat_packComponents :
    (packComponents Format.binary64 sign exponent mantissa).toNat =
      sign.toBitVec.toNat * 2 ^ 63 + exponent.toNat * 2 ^ 52 + mantissa.toNat := by
  have small := mantissa.isLt
  have small' := exponent.isLt
  unfold packComponents
  rw [BitVec.toNat_append, BitVec.toNat_append, ← Nat.shiftLeft_add_eq_or_of_lt small,
    ← Nat.shiftLeft_add_eq_or_of_lt small', Nat.shiftLeft_eq, Nat.shiftLeft_eq]
  ring

/-- Each pattern of bits has a sign, an exponent and a mantissa. -/
theorem exists_parts (bits : BitVec 64) :
    ∃ sign exponent mantissa, bits = packComponents Format.binary64 sign exponent mantissa := by
  refine ⟨if bits.toNat < 2 ^ 63 then .positive else .negative,
    .ofNat 11 (bits.toNat / 2 ^ 52), .ofNat 52 bits.toNat, BitVec.eq_of_toNat_eq ?_⟩
  have bound := bits.isLt
  rw [toNat_packComponents, BitVec.toNat_ofNat, BitVec.toNat_ofNat]
  split
  · simp only [Sign.toBitVec, BitVec.toNat_ofNat]
    omega
  · simp only [Sign.toBitVec, BitVec.toNat_ofNat]
    omega

theorem exponentBias_binary64 : Format.binary64.exponentBias = 1023 := rfl

theorem mantissaBits_binary64 : Format.binary64.mantissaBits = 53 := rfl

theorem pack_subnormal (positive : 0 < mantissa.toNat) :
    UnpackedFloat.pack Format.binary64 (.finite sign mantissa.toNat (-1074) positive) =
      packComponents Format.binary64 sign 0#11 mantissa := by
  have short : mantissa.toNat.log2 < 52 :=
    (Nat.log2_lt (Nat.ne_of_gt positive)).mpr mantissa.isLt
  have field : ¬2 ^ Format.binary64.exponentBits ≤
      ((-1074 : Int) + Format.binary64.exponentBias +
        Format.binary64.mantissaBitsWithoutImplicit).toNat + 1 := by decide
  have subnormal : ¬mantissa.toNat.log2 + 1 = Format.binary64.mantissaBits := by
    rw [mantissaBits_binary64]
    omega
  unfold UnpackedFloat.pack
  dsimp only
  rw [if_neg field, if_neg subnormal, BitVec.ofNat_toNat, BitVec.setWidth_eq]

theorem pack_normal (finite : exponent.toNat ≠ 2047)
    (positive : 0 < (1#1 ++ mantissa).toNat) :
    UnpackedFloat.pack Format.binary64
        (.finite sign (1#1 ++ mantissa).toNat ((exponent.toNat : Int) - 1075) positive) =
      packComponents Format.binary64 sign exponent mantissa := by
  have small := mantissa.isLt
  have bound := exponent.isLt
  have whole : (1#1 ++ mantissa).toNat = 2 ^ 52 + mantissa.toNat := by
    rw [BitVec.toNat_append, ← Nat.shiftLeft_add_eq_or_of_lt small, Nat.shiftLeft_eq]
    rfl
  have long : (1#1 ++ mantissa).toNat.log2 = 52 := by
    rw [whole, Nat.log2_eq_iff (by omega)]
    omega
  have biased : ((exponent.toNat : Int) - 1075 + Format.binary64.exponentBias +
      Format.binary64.mantissaBitsWithoutImplicit).toNat = exponent.toNat := by
    rw [exponentBias_binary64]
    show ((exponent.toNat : Int) - 1075 + (1023 : Nat) + (52 : Nat)).toNat = _
    omega
  have field : ¬2 ^ Format.binary64.exponentBits ≤ exponent.toNat + 1 := by
    show ¬2 ^ 11 ≤ exponent.toNat + 1
    omega
  unfold UnpackedFloat.pack
  dsimp only
  rw [biased, if_neg field, if_pos (by rw [long]; rfl), BitVec.ofNat_toNat, BitVec.setWidth_eq]
  congr 1
  refine BitVec.eq_of_toNat_eq ?_
  rw [BitVec.toNat_ofNat, whole]
  show (2 ^ 52 + mantissa.toNat) % 2 ^ 52 = mantissa.toNat
  omega

/-- What a sign, an exponent and a mantissa stand for. -/
def ofComponents (sign : Sign) (exponent : BitVec 11) (mantissa : BitVec 52) : UnpackedFloat :=
  if exponent = -1#11 then
    if mantissa = 0#52 then .infinity sign else .notANumber
  else if exponent = 0#11 then
    if zero : mantissa = 0#52 then .zero sign
    else .finite sign mantissa.toNat ((exponent.toNat : Int) - 1075 + 1)
      (Nat.pos_of_ne_zero fun h => zero (BitVec.eq_of_toNat_eq h))
  else .finite sign (1#1 ++ mantissa).toNat ((exponent.toNat : Int) - 1075) (by
    rw [BitVec.toNat_append]
    exact Nat.lt_of_lt_of_le (by decide) Nat.left_le_or)

/-- A pattern of bits stands for an infinity, for no number, or for zero or more than that. -/
theorem ofComponents_cases {p : UnpackedFloat → Prop}
    (infinity : exponent = -1#11 → mantissa = 0#52 → p (.infinity sign))
    (notANumber : exponent = -1#11 → mantissa ≠ 0#52 → p .notANumber)
    (zero : exponent ≠ -1#11 → p (.zero sign))
    (finite : exponent ≠ -1#11 → ∀ m e positive, p (.finite sign m e positive)) :
    p (ofComponents sign exponent mantissa) := by
  unfold ofComponents
  by_cases top : exponent = -1#11
  · rw [if_pos top]
    split
    · exact infinity top ‹_›
    · exact notANumber top ‹_›
  · rw [if_neg top]
    by_cases least : exponent = 0#11
    · rw [if_pos least]
      by_cases none : mantissa = 0#52
      · rw [dif_pos none]
        exact zero top
      · rw [dif_neg none]
        exact finite top _ _ _
    · rw [if_neg least]
      exact finite top _ _ _

theorem unpack_eq_ofComponents (bits : BitVec 64) : UnpackedFloat.unpack Format.binary64 bits =
    ofComponents (Sign.ofBitVec (@unpackSign Format.binary64 bits))
      (@unpackExponent Format.binary64 bits) (@unpackMantissa Format.binary64 bits) := rfl

theorem unpack_packComponents :
    UnpackedFloat.unpack Format.binary64 (packComponents Format.binary64 sign exponent mantissa) =
      ofComponents sign exponent mantissa := by
  rw [unpack_eq_ofComponents, sign_packComponents, unpackExponent_packComponents,
    unpackMantissa_packComponents]

/-- A pattern of bits that is no unusual NaN comes back from being taken apart. -/
theorem pack_unpack {bits : BitVec 64} (valid : Format.binary64.Valid bits) :
    UnpackedFloat.pack Format.binary64 (UnpackedFloat.unpack Format.binary64 bits) = bits := by
  obtain ⟨sign, exponent, mantissa, rfl⟩ := exists_parts bits
  have canonical := valid.eq_packedNaN
  simp only [unpackMantissa_packComponents, unpackExponent_packComponents] at canonical
  rw [unpack_packComponents]
  unfold ofComponents
  by_cases infinite : exponent = -1#11
  · subst infinite
    rw [if_pos rfl]
    by_cases zero : mantissa = 0#52
    · subst zero
      rfl
    · rw [if_neg zero]
      exact (canonical rfl zero).symm
  · rw [if_neg infinite]
    by_cases least : exponent = 0#11
    · subst least
      rw [if_pos rfl]
      by_cases zero : mantissa = 0#52
      · subst zero
        rfl
      · rw [dif_neg zero]
        exact pack_subnormal _
    · rw [if_neg least]
      exact pack_normal (fun h => infinite (BitVec.eq_of_toNat_eq h)) _

/-- Turning the sign around is negation. -/
theorem unpack_neg_sign :
    UnpackedFloat.unpack Format.binary64
      (packComponents Format.binary64 (-sign) exponent mantissa) =
      (UnpackedFloat.unpack Format.binary64
        (packComponents Format.binary64 sign exponent mantissa)).neg := by
  rw [unpack_packComponents, unpack_packComponents]
  unfold ofComponents
  by_cases infinite : exponent = -1#11
  · rw [if_pos infinite, if_pos infinite]
    split <;> rfl
  · rw [if_neg infinite, if_neg infinite]
    by_cases least : exponent = 0#11
    · rw [if_pos least, if_pos least]
      by_cases zero : mantissa = 0#52
      · rw [dif_pos zero, dif_pos zero]
        rfl
      · rw [dif_neg zero, dif_neg zero]
        rfl
    · rw [if_neg least, if_neg least]
      rfl

theorem ofBits_toBits (x : Float) : Float.ofBits x.toBits = x := by
  obtain ⟨⟨bits, valid⟩⟩ := x
  have same := congrArg UInt64.ofBitVec (pack_unpack valid)
  exact congrArg Float.ofModel ((Float.Model.mk.injEq _ _ _ _).mpr same)

theorem toBits_ofBits {bits : UInt64} (valid : Format.binary64.Valid bits.toBitVec) :
    (Float.ofBits bits).toBits = bits := by
  show UInt64.ofBitVec _ = bits
  rw [pack_unpack valid]

/-- A double with a sign, an exponent and a mantissa. -/
structure HasParts (x : Float) (sign : Sign) (exponent : BitVec 11) (mantissa : BitVec 52) :
    Prop where
  bits : x.toBits.toBitVec = packComponents Format.binary64 sign exponent mantissa

variable {x : Float}

theorem hasParts (x : Float) : ∃ sign exponent mantissa, HasParts x sign exponent mantissa := by
  obtain ⟨sign, exponent, mantissa, eq⟩ := exists_parts x.toBits.toBitVec
  exact ⟨sign, exponent, mantissa, ⟨eq⟩⟩

theorem valid_of_finite (finite : exponent ≠ -1#11) :
    Format.binary64.Valid (packComponents Format.binary64 sign exponent mantissa) := by
  refine ⟨fun infinite => absurd infinite ?_⟩
  rw [unpackExponent_packComponents]
  exact finite

namespace HasParts

theorem eq_of_same {y : Float} (hx : HasParts x sign exponent mantissa)
    (hy : HasParts y sign exponent mantissa) : x = y := by
  have same : x.toBits = y.toBits := UInt64.toBitVec_inj.mp (hx.bits.trans hy.bits.symm)
  rw [← ofBits_toBits x, ← ofBits_toBits y, same]

theorem toNat (h : HasParts x sign exponent mantissa) :
    x.toBits.toNat =
      sign.toBitVec.toNat * 2 ^ 63 + exponent.toNat * 2 ^ 52 + mantissa.toNat := by
  rw [← UInt64.toNat_toBitVec, h.bits, toNat_packComponents]

theorem unpack_eq (h : HasParts x sign exponent mantissa) : x.toModel.unpack =
    UnpackedFloat.unpack Format.binary64
      (packComponents Format.binary64 sign exponent mantissa) := by
  rw [← h.bits]
  rfl

theorem isFinite_iff (h : HasParts x sign exponent mantissa) :
    x.isFinite = true ↔ exponent ≠ -1#11 := by
  unfold Float.isFinite Float.Model.isFinite
  rw [h.unpack_eq, unpack_packComponents]
  exact ofComponents_cases (p := fun u => u.isFinite = true ↔ exponent ≠ -1#11)
    (fun top _ => ⟨by rintro ⟨⟩, fun finite => absurd top finite⟩)
    (fun top _ => ⟨by rintro ⟨⟩, fun finite => absurd top finite⟩)
    (fun finite => ⟨fun _ => finite, fun _ => rfl⟩)
    (fun finite _ _ _ => ⟨fun _ => finite, fun _ => rfl⟩)

theorem isNegative_iff (h : HasParts x sign exponent mantissa) :
    isNegative x = true ↔ sign = .negative := by
  have small := mantissa.isLt
  have bound := exponent.isLt
  have total := h.toNat
  unfold isNegative
  rw [decide_eq_true_iff, show Nat.pow 2 63 = 2 ^ 63 from rfl]
  cases sign with
  | positive =>
    rw [show Sign.positive.toBitVec.toNat = 0 from rfl] at total
    constructor
    · intro large
      omega
    · rintro ⟨⟩
  | negative =>
    rw [show Sign.negative.toBitVec.toNat = 1 from rfl] at total
    constructor
    · intro _
      rfl
    · intro _
      omega

/-- Negation of what is no NaN. -/
theorem neg (h : HasParts x sign exponent mantissa) (finite : exponent ≠ -1#11) :
    HasParts (-x) (-sign) exponent mantissa := by
  constructor
  show UnpackedFloat.pack Format.binary64 x.toModel.unpack.neg = _
  rw [h.unpack_eq, ← unpack_neg_sign, pack_unpack (valid_of_finite finite)]

theorem ofBits (finite : exponent ≠ -1#11) {bits : UInt64}
    (h : bits.toNat = sign.toBitVec.toNat * 2 ^ 63 + exponent.toNat * 2 ^ 52 + mantissa.toNat) :
    HasParts (Float.ofBits bits) sign exponent mantissa := by
  have same : bits.toBitVec = packComponents Format.binary64 sign exponent mantissa := by
    refine BitVec.eq_of_toNat_eq ?_
    rw [UInt64.toNat_toBitVec, h, toNat_packComponents]
  constructor
  rw [toBits_ofBits (same ▸ valid_of_finite finite), same]

/-- The magnitude of a double. -/
theorem ofFloat_eq (h : HasParts x sign exponent mantissa) : Binary.ofFloat x =
    if exponent.toNat = 0 then ⟨mantissa.toNat, -1074⟩
    else ⟨leastNormal + mantissa.toNat, (exponent.toNat : Int) - 1075⟩ := by
  have small := mantissa.isLt
  have bound := exponent.isLt
  have total := h.toNat
  have sign' : sign.toBitVec.toNat < 2 := sign.toBitVec.isLt
  have low : x.toBits.toNat % leastNormal = mantissa.toNat := by
    rw [total, show leastNormal = 2 ^ 52 from rfl]
    omega
  have high : x.toBits.toNat / leastNormal % 2048 = exponent.toNat := by
    rw [total, show leastNormal = 2 ^ 52 from rfl]
    omega
  unfold Binary.ofFloat
  dsimp only
  rw [low, high]

end HasParts

/-- The magnitude of a finite double has a mantissa of 53 bits, but near zero it can be smaller. -/
theorem ofFloat_bounds (finite : x.isFinite = true) :
    (Binary.ofFloat x).mantissa < 2 ^ 53 ∧ -1074 ≤ (Binary.ofFloat x).exponent ∧
      (Binary.ofFloat x).exponent ≤ 971 ∧
      (-1074 < (Binary.ofFloat x).exponent → 2 ^ 52 ≤ (Binary.ofFloat x).mantissa) := by
  obtain ⟨sign, exponent, mantissa, parts⟩ := hasParts x
  have small := mantissa.isLt
  have bound := exponent.isLt
  have below : exponent.toNat ≠ 2047 := fun h =>
    parts.isFinite_iff.mp finite (BitVec.eq_of_toNat_eq h)
  rw [parts.ofFloat_eq, show leastNormal = 2 ^ 52 from rfl]
  split
  · dsimp only
    omega
  · dsimp only
    omega

/-- A finite double without sign comes back from its magnitude. -/
theorem toFloat_ofFloat (finite : x.isFinite = true) (positive : isNegative x = false) :
    (Binary.ofFloat x).toFloat = x := by
  obtain ⟨sign, exponent, mantissa, parts⟩ := hasParts x
  have small := mantissa.isLt
  have bound := exponent.isLt
  have notAll := parts.isFinite_iff.mp finite
  have below : exponent.toNat ≠ 2047 := fun h => notAll (BitVec.eq_of_toNat_eq h)
  have plus : sign = .positive := by
    cases sign with
    | positive => rfl
    | negative =>
      rw [parts.isNegative_iff.mpr rfl] at positive
      cases positive
  subst plus
  refine HasParts.eq_of_same (HasParts.ofBits notAll ?_) parts
  rw [parts.ofFloat_eq, show leastNormal = 2 ^ 52 from rfl,
    show UInt64.toNat _ = (_ : Nat) % 2 ^ 64 from UInt64.toNat_ofNat']
  simp only [Sign.toBitVec, BitVec.toNat_ofNat]
  split
  · dsimp only
    omega
  · dsimp only
    omega

theorem isFinite_neg (finite : x.isFinite = true) : (-x).isFinite = true := by
  obtain ⟨sign, exponent, mantissa, parts⟩ := hasParts x
  have notAll := parts.isFinite_iff.mp finite
  exact (parts.neg notAll).isFinite_iff.mpr notAll

theorem isNegative_neg (finite : x.isFinite = true) : isNegative (-x) = !isNegative x := by
  obtain ⟨sign, exponent, mantissa, parts⟩ := hasParts x
  have turned := (parts.neg (parts.isFinite_iff.mp finite)).isNegative_iff
  rw [Bool.eq_iff_iff, turned, Bool.not_eq_true', ← Bool.not_eq_true, parts.isNegative_iff]
  cases sign with
  | positive => exact ⟨fun _ => by rintro ⟨⟩, fun _ => rfl⟩
  | negative => exact ⟨by rintro ⟨⟩, fun h => absurd rfl h⟩

theorem ofFloat_neg (finite : x.isFinite = true) : Binary.ofFloat (-x) = Binary.ofFloat x := by
  obtain ⟨sign, exponent, mantissa, parts⟩ := hasParts x
  rw [(parts.neg (parts.isFinite_iff.mp finite)).ofFloat_eq, parts.ofFloat_eq]

theorem neg_neg_of_finite (finite : x.isFinite = true) : - -x = x := by
  obtain ⟨sign, exponent, mantissa, parts⟩ := hasParts x
  have notAll := parts.isFinite_iff.mp finite
  have twice := (parts.neg notAll).neg notAll
  have same : - -sign = sign := by cases sign <;> rfl
  rw [same] at twice
  exact twice.eq_of_same parts

/-- There is one NaN. -/
theorem eq_of_isNaN (h : x.isNaN = true) : x = 0.0 / 0.0 := by
  obtain ⟨sign, exponent, mantissa, parts⟩ := hasParts x
  have canonical := x.toModel.valid.eq_packedNaN
  rw [show x.toModel.toBits.toBitVec = _ from parts.bits, unpackExponent_packComponents,
    unpackMantissa_packComponents] at canonical
  unfold Float.isNaN Float.Model.isNaN at h
  rw [parts.unpack_eq, unpack_packComponents] at h
  have bits : x.toBits.toBitVec = packedNaN Format.binary64 := by
    rw [parts.bits]
    revert h
    exact ofComponents_cases (p := fun u => u.isNaN = true → _) (by rintro _ _ ⟨⟩)
      (fun top some _ => canonical top some) (by rintro _ ⟨⟩) (by rintro _ _ _ _ ⟨⟩)
  have same : x.toBits = (0.0 / 0.0 : Float).toBits := by
    refine UInt64.toBitVec_inj.mp (bits.trans ?_)
    decide +kernel
  rw [← ofBits_toBits x, same, ofBits_toBits]

/-- The infinities are quotients by zero. -/
theorem eq_of_isInf (h : x.isInf = true) :
    x = if isNegative x then -1.0 / 0.0 else 1.0 / 0.0 := by
  obtain ⟨sign, exponent, mantissa, parts⟩ := hasParts x
  unfold Float.isInf Float.Model.isInf at h
  rw [parts.unpack_eq, unpack_packComponents] at h
  have bits : exponent = -1#11 ∧ mantissa = 0#52 := by
    revert h
    exact ofComponents_cases (p := fun u => u.isInf = true → _) (fun top zero _ => ⟨top, zero⟩)
      (by rintro _ _ ⟨⟩) (by rintro _ ⟨⟩) (by rintro _ _ _ _ ⟨⟩)
  obtain ⟨rfl, rfl⟩ := bits
  split
  · rename_i negative
    have minus := parts.isNegative_iff.mp negative
    subst minus
    exact parts.eq_of_same ⟨by decide +kernel⟩
  · rename_i positive
    have plus : sign = .positive := by
      cases sign with
      | positive => rfl
      | negative => exact absurd (parts.isNegative_iff.mpr rfl) positive
    subst plus
    exact parts.eq_of_same ⟨by decide +kernel⟩

end Stencil.Double
