/-
Rounding — a mantissa of any length is rounded to 53 bits.

The bits that are moved out leave two behind, a round bit and a sticky bit
(`shift_exact`), and these decide as the exact remainder does: half of the
last place goes to the even neighbour (`roundedMantissa_shift`).

Main statement: `exists_round`.
-/
import Mathlib
import Pixelwise.Proofs.Comparing

namespace Pixelwise.Binary64

open Float.Model Float.Model.UnpackedFloat

/-! ## The nearest whole number -/

/-- `n` over two to the `k`, rounded to the nearest whole number, or to the
even one of two. -/
def halfEven (n k : Nat) : Nat :=
  if 2 * (n % 2 ^ k) < 2 ^ k then n / 2 ^ k
  else if 2 ^ k < 2 * (n % 2 ^ k) then n / 2 ^ k + 1
  else n / 2 ^ k + n / 2 ^ k % 2

@[simp] theorem halfEven_zero (n : Nat) : halfEven n 0 = n := by
  rw [halfEven, Nat.pow_zero, Nat.mod_one, Nat.div_one, if_pos (by decide)]

theorem halfEven_le (n k : Nat) : halfEven n k ≤ n / 2 ^ k + 1 := by
  rw [halfEven]
  split
  · omega
  · split <;> omega

theorem le_halfEven (n k : Nat) : n / 2 ^ k ≤ halfEven n k := by
  rw [halfEven]
  split
  · omega
  · split <;> omega

/-- What is a little less than an even number of units rounds up to that
number if what is missing is at most half a unit. -/
theorem halfEven_sub {a m k : Nat} (heven : a % 2 = 0) (hpos : 0 < m) (hlt : m < a * 2 ^ k) :
    halfEven (a * 2 ^ k - m) k ≤ a ∧ (halfEven (a * 2 ^ k - m) k = a ↔ 2 * m ≤ 2 ^ k) := by
  have hdiv := Nat.div_add_mod (a * 2 ^ k - m) (2 ^ k)
  have hmod := Nat.mod_lt (a * 2 ^ k - m) (Nat.two_pow_pos k)
  rw [halfEven]
  generalize (a * 2 ^ k - m) / 2 ^ k = q at *
  generalize (a * 2 ^ k - m) % 2 ^ k = r at *
  generalize 2 ^ k = p at *
  have hq : q < a := by
    refine Nat.lt_of_mul_lt_mul_left (a := p) ?_
    rw [Nat.mul_comm p a]
    omega
  rcases Nat.lt_or_ge (q + 1) a with hq' | hq'
  · have : p * q + 2 * p ≤ a * p := by nlinarith
    split
    · omega
    · split <;> omega
  · obtain rfl : a = q + 1 := by omega
    have : (q + 1) * p = p * q + p := by ring
    split
    · omega
    · split <;> omega

/-! ## Bits that are moved out -/

theorem mod_two_pow_succ (n k : Nat) : n % 2 ^ (k + 1) = n % 2 ^ k + 2 ^ k * (n / 2 ^ k % 2) := by
  rw [Nat.pow_succ, Nat.mod_mul]

/-- The last bit that is moved out is the round bit, and the sticky bit tells
whether one before it was set. -/
theorem shift_exact (n k : Nat) :
    ExtendedMantissa.ofMantissaAndAccuracy n .exact >>> (k + 1) =
      ⟨n / 2 ^ (k + 1), n / 2 ^ k % 2 != 0, n % 2 ^ k != 0⟩ := by
  induction k with
  | zero =>
      show (⟨n / 2, n % 2 != 0, false⟩ : ExtendedMantissa) = _
      rw [Nat.pow_zero, Nat.div_one, Nat.mod_one]
      rfl
  | succ k ih =>
      have hstep : ExtendedMantissa.ofMantissaAndAccuracy n .exact >>> (k + 1 + 1) =
          (ExtendedMantissa.ofMantissaAndAccuracy n .exact >>> (k + 1)).shiftRightOne := rfl
      rw [hstep, ih, ExtendedMantissa.shiftRightOne, Nat.div_div_eq_div_mul, ← Nat.pow_succ,
        mod_two_pow_succ n k]
      have hpos := Nat.two_pow_pos k
      rcases Nat.mod_two_eq_zero_or_one (n / 2 ^ k) with h | h
      · simp [h]
      · simp [h]

theorem roundedMantissa_shift (n k : Nat) :
    (ExtendedMantissa.ofMantissaAndAccuracy n .exact >>> k).roundedMantissa = halfEven n k := by
  cases k with
  | zero => exact (halfEven_zero n).symm
  | succ k =>
      have hlt := Nat.mod_lt n (Nat.two_pow_pos k)
      rw [shift_exact, halfEven, mod_two_pow_succ, Nat.pow_succ]
      generalize n / (2 ^ k * 2) = q
      generalize n % 2 ^ k = r at *
      generalize 2 ^ k = p at *
      rcases Nat.mod_two_eq_zero_or_one (n / p) with h | h <;>
        rcases Nat.eq_zero_or_pos r with rfl | hr <;> rw [h]
      · rw [if_pos (by omega)]
        rfl
      · rw [if_pos (by omega), bne_iff_ne.mpr hr.ne']
        rfl
      · rw [if_neg (by omega), if_neg (by omega)]
        rfl
      · rw [if_neg (by omega), if_pos (by omega), bne_iff_ne.mpr hr.ne']
        rfl

/-! ## Exponents -/

section
variable {m : Nat} {e : Int}

theorem targetExponent_eq (m : Nat) (e : Int) :
    Format.binary64.targetExponent (totalExponent m e) =
      max ((m.log2 : Int) + 1 + e - 53) minExponent :=
  rfl

/-- A mantissa that fits stays as it is. -/
theorem shiftToTargetExponent_of_lt (hm : m < 2 ^ 53) (he : minExponent ≤ e) :
    shiftToTargetExponent Format.binary64 m e .exact = (⟨m, false, false⟩, e) := by
  have hlog : m.log2 ≤ 52 := log2_le hm
  have hshift : (Format.binary64.targetExponent (totalExponent m e) - e).toNat = 0 := by
    rw [targetExponent_eq]
    omega
  rw [shiftToTargetExponent, shiftToExponent, hshift]
  simp [HShiftRight.hShiftRight, Nat.repeat, ExtendedMantissa.ofMantissaAndAccuracy]

theorem shiftToTargetExponent_two_pow (he : minExponent ≤ e) :
    shiftToTargetExponent Format.binary64 (2 ^ 53) e .exact = (⟨2 ^ 52, false, false⟩, e + 1) := by
  have hshift : (Format.binary64.targetExponent (totalExponent (2 ^ 53) e) - e).toNat = 1 := by
    rw [targetExponent_eq, Nat.log2_two_pow]
    omega
  rw [shiftToTargetExponent, shiftToExponent, hshift]
  rfl

/-- Of a mantissa that is too long all but 53 bits are moved out. -/
theorem shiftToTargetExponent_of_le (hm : 2 ^ 53 ≤ m) (he : minExponent ≤ e) :
    shiftToTargetExponent Format.binary64 m e .exact =
      (ExtendedMantissa.ofMantissaAndAccuracy m .exact >>> (m.log2 - 52),
        e + (m.log2 - 52 : Nat)) := by
  have hlog : 53 ≤ m.log2 := (Nat.le_log2 (by omega)).mpr hm
  have hshift : (Format.binary64.targetExponent (totalExponent m e) - e).toNat = m.log2 - 52 := by
    rw [targetExponent_eq]
    omega
  rw [shiftToTargetExponent, shiftToExponent, hshift]

/-- Where rounding fills the mantissa up to the next power of two, the
exponent grows. -/
theorem ofUnpacked?_roundWithAccuracy {f : Int} {em : ExtendedMantissa} (sign : Sign)
    (h : shiftToTargetExponent Format.binary64 m e .exact = (em, f)) (hpos : 0 < em.roundedMantissa)
    (hle : em.roundedMantissa ≤ 2 ^ 53) (hf : minExponent ≤ f) :
    ofUnpacked? (roundWithAccuracy Format.binary64 sign m e .exact) =
      if em.roundedMantissa < 2 ^ 53 then some ⟨sign == .negative, em.roundedMantissa, f⟩
      else some ⟨sign == .negative, 2 ^ 52, f + 1⟩ := by
  rw [roundWithAccuracy, h]
  dsimp only
  generalize em.roundedMantissa = rounded at *
  rcases Nat.lt_or_eq_of_le hle with hlt | rfl
  · rw [shiftToTargetExponent_of_lt hlt hf, if_pos hlt]
    dsimp only
    rw [dif_neg hpos.ne']
    rfl
  · rw [shiftToTargetExponent_two_pow hf, if_neg (Nat.lt_irrefl _)]
    rfl

theorem div_log2_lt (m : Nat) : m / 2 ^ (m.log2 - 52) < 2 ^ 53 := by
  rw [Nat.div_lt_iff_lt_mul (Nat.two_pow_pos _), ← Nat.pow_add]
  exact lt_of_lt_of_le Nat.lt_log2_self (Nat.pow_le_pow_right (by decide) (by omega))

theorem le_div_log2 (hm : 2 ^ 53 ≤ m) : 2 ^ 52 ≤ m / 2 ^ (m.log2 - 52) := by
  have h0 : m ≠ 0 := by omega
  have hlog : 53 ≤ m.log2 := (Nat.le_log2 h0).mpr hm
  rw [Nat.le_div_iff_mul_le (Nat.two_pow_pos _), ← Nat.pow_add, Nat.add_sub_cancel' (by omega)]
  exact Nat.log2_self_le h0

/-! ## Rounded numbers -/

theorem round_eq (sign : Sign) (m : Nat) (e : Int) :
    UnpackedFloat.round Format.binary64 sign m e =
      roundWithAccuracy Format.binary64 sign
        (m <<< (e - max ((m.log2 : Int) + 1 + e - 53) minExponent).toNat)
        (e - ((e - max ((m.log2 : Int) + 1 + e - 53) minExponent).toNat : Nat)) .exact :=
  rfl

/-- Rounding gives the nearest number with a mantissa of 53 bits. -/
theorem exists_round (sign : Sign) (hpos : 0 < m) (he : minExponent ≤ e)
    (hle : e + (m.log2 - 52 : Nat) ≤ 970) :
    ∃ c : Binary64, ofUnpacked? (UnpackedFloat.round Format.binary64 sign m e) = some c ∧
      c.Canonical ∧ c.negative = (sign == .negative) ∧
      c.magnitude = halfEven m (m.log2 - 52) * 2 ^ (e + (m.log2 - 52 : Nat)) := by
  rw [round_eq]
  rcases Nat.lt_or_ge m (2 ^ 53) with hm | hm
  · -- The mantissa fits, and is moved up as far as it goes.
    have hlog : m.log2 ≤ 52 := log2_le hm
    have hshift : (e - max ((m.log2 : Int) + 1 + e - 53) minExponent).toNat =
        shift ⟨sign == .negative, m, e⟩ := by
      show _ = min (52 - m.log2) (e - minExponent).toNat
      omega
    have hc := canonical_settled (b := ⟨sign == .negative, m, e⟩) hm he (by dsimp only; omega)
    rw [settled, if_neg hpos.ne'] at hc
    refine ⟨_, ?_, hc, rfl, ?_⟩
    · have hfits : m <<< shift ⟨sign == .negative, m, e⟩ < 2 ^ 53 := hc.mantissa_lt
      have hsome : 0 < m <<< shift ⟨sign == .negative, m, e⟩ := by
        rw [Nat.shiftLeft_eq]
        positivity
      rw [hshift, ofUnpacked?_roundWithAccuracy sign
        (shiftToTargetExponent_of_lt hfits hc.exponent_ge) hsome hfits.le hc.exponent_ge]
      exact if_pos hfits
    · rw [magnitude_shiftLeft, Nat.sub_eq_zero_of_le hlog]
      simp
  · -- The mantissa is too long, and loses its last bits.
    have hlog : 53 ≤ m.log2 := (Nat.le_log2 hpos.ne').mpr hm
    have hshift : (e - max ((m.log2 : Int) + 1 + e - 53) minExponent).toNat = 0 := by omega
    have hlow := le_div_log2 hm
    have hhigh := div_log2_lt m
    have hle' := halfEven_le m (m.log2 - 52)
    have hge' := le_halfEven m (m.log2 - 52)
    rw [hshift, Nat.shiftLeft_zero, Nat.cast_zero, sub_zero,
      ofUnpacked?_roundWithAccuracy sign (shiftToTargetExponent_of_le hm he)
        (by rw [roundedMantissa_shift]; omega) (by rw [roundedMantissa_shift]; omega) (by omega),
      roundedMantissa_shift]
    have hmin : minExponent = -1074 := rfl
    split
    · rename_i hlt
      exact ⟨_, rfl, ⟨hlt, by dsimp only; omega, by dsimp only; omega, Or.inl (hlow.trans hge')⟩,
        rfl, rfl⟩
    · rename_i hnlt
      obtain hfull : halfEven m (m.log2 - 52) = 2 ^ 53 := by omega
      refine ⟨_, rfl, ⟨(by decide : 2 ^ 52 < 2 * hiddenBit), by dsimp only; omega,
        by dsimp only; omega, Or.inl le_rfl⟩, rfl, ?_⟩
      rw [magnitude, hfull, zpow_add_one₀ (by norm_num)]
      push_cast
      ring

end

end Pixelwise.Binary64
