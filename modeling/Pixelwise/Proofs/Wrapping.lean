/-
Wrapping — whether a channel brings a number into its range.

Whole turns are taken off a number exactly (`exists_remainder_turn`), and
what is left of a negative one is taken from a full turn with rounding
(`exists_add_turn`).  A remainder of at most half a unit in the last place of
a full turn is lost there: the channel shows the full turn, which is not in
its range, and which it would bring to zero if it were asked again.

Main statement: `settles_iff`.
-/
import Mathlib
import Pixelwise.Output
import Pixelwise.Proofs.Rounding

namespace Pixelwise

open Binary64 Float.Model Float.Model.UnpackedFloat

namespace ChannelKind

/-- A host can count on the ranges of the channels: there is less than a full
turn, and no less than nothing, and what is in range is left as it is. -/
structure Settles (x : Float) : Prop where
  angular : 0 ≤ angular.apply x ∧ angular.apply x < 360
  unit : 0 ≤ unit.apply x ∧ unit.apply x ≤ 1
  again : ∀ kind : ChannelKind, kind.apply (kind.apply x) = kind.apply x

end ChannelKind

/-! ## Numbers that bound ranges -/

theorem ofFloat?_zero : ofFloat? 0 = some ⟨false, 0, -1074⟩ := by
  decide +kernel

theorem ofFloat?_one : ofFloat? 1 = some ⟨false, 2 ^ 52, -52⟩ := by
  decide +kernel

theorem ofFloat?_turn : ofFloat? 360 = some ⟨false, 360 * 2 ^ 44, -44⟩ := by
  decide +kernel

theorem turn_magnitude : magnitude ⟨false, 360 * 2 ^ 44, -44⟩ = 360 := by
  norm_num [magnitude]

theorem turn_value : value ⟨false, 360 * 2 ^ 44, -44⟩ = 360 := turn_magnitude

/-- Below a full turn there is a gap of one unit in the last place. -/
theorem magnitude_le_of_lt_turn {b : Binary64} (h : b.Canonical) (hlt : b.magnitude < 360) :
    b.exponent ≤ -44 ∧ b.magnitude ≤ 360 - 2 ^ (-44 : ℤ) := by
  rw [← turn_magnitude, h.magnitude_lt_iff (canonical_of_ofFloat? ofFloat?_turn)] at hlt
  dsimp only at hlt
  rcases hlt with hlt | ⟨heq, hlt⟩
  · refine ⟨by omega, ?_⟩
    have hm : (b.mantissa : ℚ) ≤ 2 ^ 53 := by exact_mod_cast h.mantissa_lt.le
    calc
      b.magnitude ≤ 2 ^ 53 * 2 ^ (-45 : ℤ) := by
        rw [magnitude]
        gcongr
        · norm_num
        · omega
      _ ≤ 360 - 2 ^ (-44 : ℤ) := by norm_num
  · refine ⟨heq.le, ?_⟩
    have hm : (b.mantissa : ℚ) ≤ 360 * 2 ^ 44 - 1 := by
      have hcast : ((b.mantissa + 1 : ℕ) : ℚ) ≤ 360 * 2 ^ 44 := by exact_mod_cast hlt
      push_cast at hcast
      linarith
    calc
      b.magnitude ≤ (360 * 2 ^ 44 - 1) * 2 ^ (-44 : ℤ) := by
        rw [magnitude, heq]
        gcongr
      _ = 360 - 2 ^ (-44 : ℤ) := by norm_num

/-! ## Whole turns -/

/-- A mantissa that is moved up to a lesser exponent. -/
theorem shiftLeft_mul {m : Nat} {e f : Int} (h : f ≤ e) :
    ((m <<< (e - f).toNat : Nat) : ℚ) * 2 ^ f = m * 2 ^ e := by
  have hf : e - ((e - f).toNat : Int) = f := by omega
  have hmagnitude := magnitude_shiftLeft false m (e - f).toNat e
  rwa [magnitude, hf] at hmagnitude

open Arithmetic in
/-- Whole turns are taken off a number, and its sign is kept. -/
theorem exists_remainder_turn {x : Float} {b : Binary64} (h : ofFloat? x = some b) :
    ∃ c, ofFloat? (remainder x 360) = some c ∧ c.negative = b.negative ∧ c.magnitude < 360 ∧
      ∃ turns : Nat, b.magnitude = 360 * turns + c.magnitude := by
  obtain ⟨hfits, hge, -, -⟩ := canonical_of_ofFloat? h
  let exponent := min b.exponent (-44)
  let dividend := b.mantissa <<< (b.exponent - exponent).toNat
  let divisor := (360 * 2 ^ 44) <<< (-44 - exponent).toNat
  have hremainder : remainder x 360 = toFloat ⟨b.negative, dividend % divisor, exponent⟩ := by
    rw [remainder, if_neg (fun hinf => absurd hinf.1 (by decide +kernel)), h, ofFloat?_turn]
    rfl
  have hdividend : b.magnitude = dividend * 2 ^ exponent :=
    (shiftLeft_mul (min_le_left ..)).symm
  have hdivisor : (divisor : ℚ) * 2 ^ exponent = 360 :=
    (shiftLeft_mul (min_le_right ..)).trans turn_magnitude
  have hpos : 0 < divisor := by
    simp only [divisor, Nat.shiftLeft_eq]
    positivity
  -- One of the two is not moved, so that the remainder fits.
  have hlt : dividend % divisor < 2 * hiddenBit := by
    rcases le_total b.exponent (-44) with hle | hle
    · refine (Nat.mod_le ..).trans_lt ?_
      simpa [dividend, exponent, hle] using hfits
    · refine (Nat.mod_lt _ hpos).trans_le ?_
      simp [divisor, exponent, hle, hiddenBit]
  have hleast : minExponent ≤ exponent := le_min hge (by decide)
  have hmost : exponent ≤ 971 := (min_le_right ..).trans (by decide)
  refine ⟨settled ⟨b.negative, dividend % divisor, exponent⟩, ?_, settled_negative _, ?_,
    dividend / divisor, ?_⟩
  · rw [hremainder, ofFloat?_toFloat hlt hleast hmost]
  · rw [settled_magnitude, magnitude, ← hdivisor]
    have hmod := Nat.mod_lt dividend hpos
    gcongr
  · have hcast : (dividend : ℚ) =
        divisor * (dividend / divisor : Nat) + (dividend % divisor : Nat) := by
      exact_mod_cast (Nat.div_add_mod dividend divisor).symm
    rw [settled_magnitude, hdividend, magnitude, ← hdivisor]
    conv_lhs => rw [hcast]
    ring

/-- A number below a full turn is what is left of it. -/
theorem remainder_of_lt_turn {x : Float} {b : Binary64} (h : ofFloat? x = some b)
    (hlt : b.magnitude < 360) : Arithmetic.remainder x 360 = x := by
  obtain ⟨c, hc, hsign, -, turns, hturns⟩ := exists_remainder_turn h
  have hnone : turns = 0 := by
    by_contra hne
    have h1 : (1 : ℚ) ≤ turns := by exact_mod_cast Nat.one_le_iff_ne_zero.mpr hne
    have hnonneg := c.magnitude_nonneg
    linarith
  rw [hnone, Nat.cast_zero, mul_zero, zero_add] at hturns
  obtain ⟨hm, he⟩ := (canonical_of_ofFloat? h).magnitude_inj (canonical_of_ofFloat? hc) hturns
  obtain rfl : b = c := by
    cases b
    cases c
    simp_all
  exact ofFloat?_inj hc h

/-! ## What is taken from a full turn -/

theorem unpack_eq_finite {x : Float} {b : Binary64} (h : ofFloat? x = some b)
    (hpos : 0 < b.mantissa) :
    x.toModel.unpack =
      .finite (if b.negative then .negative else .positive) b.mantissa b.exponent hpos := by
  rw [ofFloat?_eq_ofUnpacked?] at h
  refine ofUnpacked?_inj h ?_
  obtain ⟨negative, mantissa, exponent⟩ := b
  cases negative <;> rfl

/-- What is left of a full turn is computed exactly and then rounded. -/
theorem exists_add_turn {x : Float} {b : Binary64} (h : ofFloat? x = some b)
    (hnegative : b.negative = true) (hpos : 0 < b.mantissa) (hexp : b.exponent ≤ -44)
    (hlt : b.mantissa < 360 * 2 ^ 44 * 2 ^ (-44 - b.exponent).toNat) :
    let rest := 360 * 2 ^ 44 * 2 ^ (-44 - b.exponent).toNat - b.mantissa
    ∃ c : Binary64, ofFloat? (x + 360) = some c ∧ c.negative = false ∧
      c.magnitude = halfEven rest (rest.log2 - 52) * 2 ^ (b.exponent + (rest.log2 - 52 : Nat)) := by
  intro rest
  have hx := unpack_eq_finite h hpos
  have hturn := unpack_eq_finite ofFloat?_turn (by decide)
  rw [hnegative] at hx
  have hge := (canonical_of_ofFloat? h).exponent_ge
  have hrest : 0 < rest := Nat.sub_pos_of_lt hlt
  have hsum : (x.toModel.unpack).add Format.binary64 (Float.toModel 360).unpack =
      UnpackedFloat.round Format.binary64 .positive rest b.exponent := by
    have hsum : -(b.mantissa : Int) + ((360 * 2 ^ 44) <<< (-44 - b.exponent).toNat : Nat) =
        rest := by
      rw [Nat.shiftLeft_eq]
      omega
    have hgt : compare (rest : Int) 0 = .gt := compare_gt_iff_gt.mpr (by omega)
    rw [hx, hturn, UnpackedFloat.add]
    simp only [decreaseExponent, min_eq_left hexp, sub_self, Int.toNat_zero, Nat.shiftLeft_zero,
      if_pos, if_false, Bool.false_eq_true, Sign.apply]
    rw [hsum, UnpackedFloat.normalize, hgt]
    rfl
  have hlog : b.exponent + (rest.log2 - 52 : Nat) ≤ 970 := by
    have hlt : rest < 2 ^ (53 + (-44 - b.exponent).toNat) := by
      have hturn : 360 * 2 ^ 44 ≤ 2 ^ 53 := by decide
      have hmul := Nat.mul_le_mul_right (2 ^ (-44 - b.exponent).toNat) hturn
      rw [Nat.pow_add]
      omega
    have := (Nat.log2_lt hrest.ne').mpr hlt
    omega
  obtain ⟨c, hc, hcanonical, hsign, hmagnitude⟩ := exists_round .positive hrest hge hlog
  refine ⟨c, ?_, hsign, hmagnitude⟩
  rw [← hsum] at hc
  exact ofFloat?_pack hc hcanonical

/-- Half a unit in the last place, or less, leaves a full turn after rounding. -/
theorem rest_bounds {m k : Nat} (hpos : 0 < m) (hlt : m < 360 * 2 ^ 44 * 2 ^ k) :
    let rest := 360 * 2 ^ 44 * 2 ^ k - m
    let rounded : ℚ := halfEven rest (rest.log2 - 52) * 2 ^ (-44 - k + (rest.log2 - 52 : Nat) : ℤ)
    rounded ≤ 360 ∧ (rounded = 360 ↔ 2 * m ≤ 2 ^ k) := by
  intro rest rounded
  have hrest : 0 < rest := Nat.sub_pos_of_lt hlt
  have hlog : rest.log2 < 53 + k := by
    refine (Nat.log2_lt hrest.ne').mpr ?_
    have hmul := Nat.mul_le_mul_right (2 ^ k) (show 360 * 2 ^ 44 ≤ 2 ^ 53 by decide)
    rw [Nat.pow_add]
    omega
  rcases Nat.lt_or_eq_of_le (show rest.log2 - 52 ≤ k by omega) with hk | hk
  · -- An exponent below that of a full turn leaves at most 256.
    have hmantissa : halfEven rest (rest.log2 - 52) ≤ 2 ^ 53 :=
      (halfEven_le ..).trans (div_log2_lt rest)
    have hfar : rest < 2 ^ 52 * 2 ^ k := by
      rw [← Nat.pow_add]
      exact lt_of_lt_of_le Nat.lt_log2_self (Nat.pow_le_pow_right (by decide) (by omega))
    have hsmall : rounded ≤ 256 := by
      calc
        rounded ≤ 2 ^ 53 * 2 ^ (-45 : ℤ) := by
          simp only [rounded]
          gcongr
          · exact_mod_cast hmantissa
          · norm_num
          · omega
        _ = 256 := by norm_num
    refine ⟨by linarith, iff_of_false (by linarith) ?_⟩
    omega
  · obtain ⟨hle, heq⟩ := halfEven_sub (a := 360 * 2 ^ 44) (by decide) hpos hlt
    have hrounded : rounded = halfEven rest k * 2 ^ (-44 : ℤ) := by
      simp only [rounded, hk]
      congr 2
      omega
    have hturn : (360 : ℚ) = (360 * 2 ^ 44 : Nat) * 2 ^ (-44 : ℤ) := by norm_num
    have hunit : (0 : ℚ) < 2 ^ (-44 : ℤ) := by norm_num
    rw [hrounded, ← heq, hturn, mul_le_mul_iff_left₀ hunit, mul_left_inj' hunit.ne',
      Nat.cast_le, Nat.cast_inj]
    exact ⟨hle, Iff.rfl⟩

theorem exists_add_turn_of_neg {x : Float} {b : Binary64} (h : ofFloat? x = some b)
    (hneg : b.value < 0) (hlt : -360 < b.value) :
    ∃ c, ofFloat? (x + 360) = some c ∧ 0 ≤ c.value ∧ c.value ≤ 360 ∧
      (c.value = 360 ↔ -2 ^ (-45 : ℤ) ≤ b.value) := by
  have hnegative : b.negative = true := by
    by_contra hsign
    have hnonneg := b.magnitude_nonneg
    rw [value_of_positive (Bool.eq_false_iff.mpr hsign)] at hneg
    linarith
  rw [value_of_negative hnegative] at hneg hlt ⊢
  have hpos : 0 < b.mantissa := by
    rcases Nat.eq_zero_or_pos b.mantissa with h0 | hpos
    · simp [magnitude, h0] at hneg
    · exact hpos
  have hexp := (magnitude_le_of_lt_turn (canonical_of_ofFloat? h) (by linarith)).1
  obtain ⟨k, hk⟩ : ∃ k : ℕ, b.exponent = -44 - k := ⟨(-44 - b.exponent).toNat, by omega⟩
  have hk' : (-44 - b.exponent).toNat = k := by omega
  have hless : b.mantissa < 360 * 2 ^ 44 * 2 ^ k := by
    have hturn : (360 : ℚ) = (360 * 2 ^ 44 * 2 ^ k : ℕ) * 2 ^ b.exponent := by
      rw [hk, zpow_sub₀ (by norm_num), zpow_natCast]
      push_cast
      field_simp
      norm_num
    have hmagnitude : b.magnitude < 360 := by linarith
    rw [magnitude, hturn, mul_lt_mul_iff_left₀ (by positivity)] at hmagnitude
    exact_mod_cast hmagnitude
  obtain ⟨c, hc, hpositive, hmagnitude⟩ := exists_add_turn h hnegative hpos hexp (hk' ▸ hless)
  obtain ⟨hle, heq⟩ := rest_bounds hpos hless
  rw [hk', hk] at hmagnitude
  have hhalf : 2 * b.mantissa ≤ 2 ^ k ↔ -2 ^ (-45 : ℤ) ≤ -b.magnitude := by
    have hunit : (2 : ℚ) ^ (-45 : ℤ) = 2 ^ k * 2 ^ (-45 - k : ℤ) := by
      rw [← zpow_natCast, ← zpow_add₀ (by norm_num)]
      congr 1
      omega
    have hmagnitude : b.magnitude = (2 * b.mantissa : ℕ) * 2 ^ (-45 - k : ℤ) := by
      rw [magnitude, hk, show (-44 - k : ℤ) = -45 - k + 1 by omega, zpow_add_one₀ (by norm_num)]
      push_cast
      ring
    rw [neg_le_neg_iff, hmagnitude, hunit, mul_le_mul_iff_left₀ (by positivity)]
    exact_mod_cast Iff.rfl
  refine ⟨c, hc, ?_⟩
  rw [value_of_positive hpositive]
  refine ⟨c.magnitude_nonneg, ?_, ?_⟩
  · rw [hmagnitude]
    exact hle
  · rw [hmagnitude, heq, hhalf]

/-! ## Angles -/

theorem fract_of_turns {q : ℚ} (turns : ℤ) (h0 : 0 ≤ q - 360 * turns)
    (h1 : q - 360 * turns < 360) :
    360 * Int.fract (q / 360) = q - 360 * turns := by
  have hfract : Int.fract (q / 360) = q / 360 - turns := by
    rw [Int.fract_eq_iff]
    exact ⟨by linarith, by linarith, turns, by ring⟩
  rw [hfract]
  ring

theorem wrap_of_nonneg {x : Float} {b : Binary64} (h : ofFloat? x = some b)
    (hnonneg : 0 ≤ b.value) (hlt : b.value < 360) :
    Arithmetic.wrap x 360 = x ∧ 0 ≤ x ∧ x < 360 := by
  have hmagnitude : b.magnitude < 360 := by
    cases hsign : b.negative with
    | false => rwa [value_of_positive hsign] at hlt
    | true =>
        rw [value_of_negative hsign] at hnonneg
        linarith
  rw [Arithmetic.wrap, remainder_of_lt_turn h hmagnitude]
  refine ⟨if_neg ?_, ?_, ?_⟩
  · rw [lt_iff_value_lt h ofFloat?_zero, value_zero]
    exact not_lt.mpr hnonneg
  · rw [le_iff_value_le ofFloat?_zero h, value_zero]
    exact hnonneg
  · rw [lt_iff_value_lt h ofFloat?_turn, turn_value]
    exact hlt

/-- What a number is brought to is a full turn exactly if so little is missing
of whole turns. -/
theorem exists_wrap {x : Float} {b : Binary64} (h : ofFloat? x = some b) :
    ∃ c, ofFloat? (Arithmetic.wrap x 360) = some c ∧ 0 ≤ c.value ∧ c.value ≤ 360 ∧
      (c.value = 360 ↔ 360 - 2 ^ (-45 : ℤ) ≤ 360 * Int.fract (b.value / 360)) := by
  obtain ⟨c, hc, hsign, hlt, turns, hturns⟩ := exists_remainder_turn h
  have hle := (magnitude_le_of_lt_turn (canonical_of_ofFloat? hc) hlt).2
  have hunit : (0 : ℚ) < 2 ^ (-45 : ℤ) := by norm_num
  have hstep : (2 : ℚ) ^ (-45 : ℤ) < 2 ^ (-44 : ℤ) := by norm_num
  have hnonneg := c.magnitude_nonneg
  obtain ⟨whole, hwhole⟩ : ∃ whole : ℤ, b.value - 360 * whole = c.value := by
    cases hb : b.negative with
    | true =>
        refine ⟨-turns, ?_⟩
        rw [value_of_negative hb, value_of_negative (hsign.trans hb), hturns]
        push_cast
        ring
    | false =>
        refine ⟨turns, ?_⟩
        rw [value_of_positive hb, value_of_positive (hsign.trans hb), hturns]
        push_cast
        ring
  have hbounds : -360 < c.value ∧ c.value ≤ 360 - 2 ^ (-44 : ℤ) := by
    rw [value]
    split <;> constructor <;> linarith
  rw [Arithmetic.wrap]
  rcases lt_or_ge c.value 0 with hneg | hpos
  · rw [if_pos ((lt_iff_value_lt hc ofFloat?_zero).mpr (hneg.trans_eq (value_zero ..).symm))]
    obtain ⟨d, hd, hd0, hd360, hfull⟩ := exists_add_turn_of_neg hc hneg hbounds.1
    have hfract : 360 * Int.fract (b.value / 360) = c.value + 360 := by
      rw [fract_of_turns (whole - 1)] <;> push_cast <;> linarith
    refine ⟨d, hd, hd0, hd360, ?_⟩
    rw [hfull, hfract]
    constructor <;> intro <;> linarith
  · have hnot : ¬ Arithmetic.remainder x 360 < 0 := by
      rw [lt_iff_value_lt hc ofFloat?_zero, value_zero]
      exact not_lt.mpr hpos
    have hfract : 360 * Int.fract (b.value / 360) = c.value := by
      rw [fract_of_turns whole] <;> linarith
    rw [if_neg hnot]
    refine ⟨c, hc, hpos, by linarith, ?_⟩
    rw [hfract]
    constructor <;> intro <;> linarith

/-! ## Shares -/

theorem clamp_clamp (x : Float) :
    Arithmetic.clamp (Arithmetic.clamp x 0 1) 0 1 = Arithmetic.clamp x 0 1 := by
  have hcases : Arithmetic.clamp x 0 1 = 0 ∨ Arithmetic.clamp x 0 1 = 1 ∨
      ¬x < 0 ∧ ¬1 < x ∧ Arithmetic.clamp x 0 1 = x := by
    rw [Arithmetic.clamp]
    split
    · exact Or.inl rfl
    · split
      · exact Or.inr (Or.inl rfl)
      · exact Or.inr (Or.inr ⟨by assumption, by assumption, rfl⟩)
  rcases hcases with h | h | ⟨-, -, h⟩
  · rw [h]
    decide +kernel
  · rw [h]
    decide +kernel
  · rw [h, h]

theorem clamp_bounds {x : Float} {b : Binary64} (h : ofFloat? x = some b) :
    0 ≤ Arithmetic.clamp x 0 1 ∧ Arithmetic.clamp x 0 1 ≤ 1 := by
  rw [Arithmetic.clamp]
  split
  · decide +kernel
  · rename_i hlow
    split
    · decide +kernel
    · rename_i hhigh
      rw [lt_iff_value_lt h ofFloat?_zero] at hlow
      rw [lt_iff_value_lt ofFloat?_one h] at hhigh
      rw [le_iff_value_le ofFloat?_zero h, le_iff_value_le h ofFloat?_one]
      exact ⟨le_of_not_gt hlow, le_of_not_gt hhigh⟩

namespace ChannelKind

/-- The ranges of the channels hold of a finite number exactly if it is not
less than whole turns by half a unit in the last place of a full turn or by
less.  Of any other number the angle is the full turn itself. -/
theorem settles_iff {x : Float} (hx : x.isFinite = true) :
    (Settles x ↔ 360 * Int.fract (exact x / 360) < 360 - 2 ^ (-45 : ℤ)) ∧
      (¬ Settles x ↔ angular.apply x = 360) := by
  obtain ⟨b, hb⟩ := isFinite_iff.mp hx
  obtain ⟨c, hc, hc0, hc360, hfull⟩ := exists_wrap hb
  have hexact : exact x = b.value := by
    rw [exact, hb]
    rfl
  have hangular : angular.apply x = Arithmetic.wrap x 360 := rfl
  have hirreflexive : ¬ (360 : Float) < 360 := by decide +kernel
  rw [hexact, ← not_le, ← hfull, hangular]
  rcases lt_or_eq_of_le hc360 with hlt | heq
  · obtain ⟨hagain, hnonneg, hless⟩ := wrap_of_nonneg hc hc0 hlt
    have hsettles : Settles x := by
      refine ⟨⟨hnonneg, hless⟩, clamp_bounds hb, fun kind => ?_⟩
      cases kind with
      | angular => exact hagain
      | unit => exact clamp_clamp x
      | raw => rfl
    have hne : Arithmetic.wrap x 360 ≠ 360 := by
      intro hturn
      rw [hturn] at hless
      exact hirreflexive hless
    exact ⟨iff_of_true hsettles hlt.ne, iff_of_false (not_not.mpr hsettles) hne⟩
  · have hturn : Arithmetic.wrap x 360 = 360 := by
      have hpositive : c.negative = false := by
        refine Bool.eq_false_iff.mpr fun hnegative => ?_
        have hnonneg := c.magnitude_nonneg
        rw [value_of_negative hnegative] at heq
        linarith
      rw [value_of_positive hpositive, ← turn_magnitude] at heq
      obtain ⟨hm, he⟩ := (canonical_of_ofFloat? hc).magnitude_inj
        (canonical_of_ofFloat? ofFloat?_turn) heq
      obtain rfl : c = ⟨false, 360 * 2 ^ 44, -44⟩ := by
        cases c
        simp_all
      exact ofFloat?_inj hc ofFloat?_turn
    have hnot : ¬ Settles x := by
      intro hsettles
      have hless := hsettles.angular.2
      rw [hangular, hturn] at hless
      exact hirreflexive hless
    exact ⟨iff_of_false hnot (not_not.mpr heq), iff_of_true hnot hturn⟩

/-- One unit in the last place below zero is brought to the last number below
a full turn. -/
theorem settles_unit_below_zero :
    (-5.684341886080802e-14 : Float).isFinite = true ∧
      exact (-5.684341886080802e-14) = -2 ^ (-44 : ℤ) ∧ Settles (-5.684341886080802e-14) := by
  have hbits : ofFloat? (-5.684341886080802e-14) = some ⟨true, 2 ^ 52, -96⟩ := by decide +kernel
  have hexact : exact (-5.684341886080802e-14) = -2 ^ (-44 : ℤ) := by
    rw [exact, hbits]
    norm_num [value, magnitude]
  refine ⟨by decide +kernel, hexact, (settles_iff (by decide +kernel)).1.mpr ?_⟩
  rw [hexact, fract_of_turns (-1)] <;> norm_num

/-- Where 1e-20 is missing of a full turn, the angle is the full turn, and zero
the second time. -/
theorem not_settles_below_zero :
    (-1e-20 : Float).isFinite = true ∧ angular.apply (-1e-20) = 360 ∧
      angular.apply (angular.apply (-1e-20)) = 0 ∧ ¬ Settles (-1e-20) := by
  have hangular : angular.apply (-1e-20) = 360 := by decide +kernel
  refine ⟨by decide +kernel, hangular, by decide +kernel, fun hsettles => ?_⟩
  have hless := hsettles.angular.2
  rw [hangular] at hless
  revert hless
  decide +kernel

end ChannelKind

end Pixelwise
