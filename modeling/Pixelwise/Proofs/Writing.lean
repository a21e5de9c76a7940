/-
Writing — a number is known by its text.

The text of a positive number has a value in the interval of rationals that
are rounded to the number (`contains_textValue`): the search tries 17 grids,
and the last of them is finer than the interval is wide
(`isSome_nearest?_last`).  The intervals of two numbers have nothing in
common (`eq_of_contains`), since an end that they share belongs to the one
with an even mantissa only.

Main statement: `write_injective`.
-/
import Mathlib
import Pixelwise.Decimal.Value
import Pixelwise.Proofs.Comparing
import Pixelwise.Proofs.Numerals

namespace Pixelwise.Decimal

open Binary64

theorem tenTo_eq (n : Nat) : tenTo n = 10 ^ n := rfl

/-! ## Digits and their values -/

section

variable {ds es : List Char}

theorem digitsValue_append (ds es : List Char) :
    digitsValue (ds ++ es) = 10 ^ es.length * digitsValue ds + digitsValue es :=
  (Nat.ofDigitChars_append 0).trans Nat.ofDigitChars_eq_ofDigitChars_zero

@[simp] theorem digitsValue_toDigits (n : Nat) : digitsValue (Nat.toDigits 10 n) = n :=
  Nat.ofDigitChars_ten_toDigits

@[simp] theorem digitsValue_replicate_zero (k : Nat) :
    digitsValue (List.replicate k '0') = 0 :=
  Nat.ofDigitChars_replicate_zero

theorem digitsValue_padZeros (width : Nat) (ds : List Char) :
    digitsValue (padZeros width ds) = digitsValue ds := by
  rw [padZeros, digitsValue_append, digitsValue_replicate_zero, Nat.mul_zero, Nat.zero_add]

theorem length_padZeros {width : Nat} (h : ds.length ≤ width) :
    (padZeros width ds).length = width := by
  rw [padZeros, List.length_append, List.length_replicate, Nat.sub_add_cancel h]

theorem isDigit_of_mem_padZeros {width : Nat} (h : ∀ d ∈ ds, d.isDigit = true) :
    ∀ d ∈ padZeros width ds, d.isDigit = true := by
  intro d hd
  rcases List.mem_append.mp hd with hd | hd
  · rw [List.eq_of_mem_replicate hd]
    rfl
  · exact h d hd

/-- Only zeros are trimmed. -/
theorem exists_trimFraction (ds : List Char) :
    ∃ k, trimFraction ds ++ List.replicate k '0' = ds := by
  refine ⟨(ds.reverse.takeWhile (· = '0')).length, ?_⟩
  have hzeros : ds.reverse.takeWhile (· = '0') =
      List.replicate (ds.reverse.takeWhile (· = '0')).length '0' := by
    refine List.eq_replicate_of_mem fun d hd => ?_
    exact of_decide_eq_true (List.all_eq_true.mp List.all_takeWhile d hd)
  rw [← List.reverse_replicate, ← hzeros, trimFraction, ← List.reverse_append,
    List.takeWhile_append_dropWhile, List.reverse_reverse]

theorem isDigit_of_mem_toDigits {n : Nat} : ∀ d ∈ Nat.toDigits 10 n, d.isDigit = true :=
  fun _ hd => Nat.isDigit_of_mem_toDigits (by decide) (by decide) hd

/-! ## Texts and their values -/

theorem textValue_digits (hds : ∀ d ∈ ds, d.isDigit = true) : textValue ds = digitsValue ds := by
  obtain ⟨htake, hdrop⟩ := takeWhile_digits [] hds rfl
  rw [List.append_nil] at htake hdrop
  simp [textValue, htake, hdrop, splitPoint]

theorem textValue_point (hds : ∀ d ∈ ds, d.isDigit = true) (hes : ∀ e ∈ es, e.isDigit = true) :
    textValue (ds ++ '.' :: es) = digitsValue ds + digitsValue es / 10 ^ es.length := by
  obtain ⟨htake, hdrop⟩ := takeWhile_digits ('.' :: es) hds rfl
  have hes' : es.takeWhile Char.isDigit = es := List.takeWhile_eq_self_iff.mpr hes
  simp only [textValue, htake, hdrop, splitPoint, hes', digitsValue_append]
  push_cast
  field_simp

/-- The digits behind the point, which are as many as the places. -/
theorem fraction_value {places r : Nat} (hplaces : 0 < places) (h : r < 10 ^ places) :
    let fraction := trimFraction (padZeros places (Nat.toDigits 10 r))
    (∀ d ∈ fraction, d.isDigit = true) ∧
      (digitsValue fraction : ℚ) / 10 ^ fraction.length = r / 10 ^ places := by
  intro fraction
  obtain ⟨k, hk⟩ := exists_trimFraction (padZeros places (Nat.toDigits 10 r))
  have hlength : fraction.length + k = places := by
    have hpadded := length_padZeros ((Nat.length_toDigits_le_iff (by decide) hplaces).mpr h)
    rw [← hk, List.length_append, List.length_replicate] at hpadded
    exact hpadded
  have hvalue : 10 ^ k * digitsValue fraction = r := by
    have hpadded := digitsValue_padZeros places (Nat.toDigits 10 r)
    rw [← hk, digitsValue_append, digitsValue_replicate_zero, List.length_replicate,
      digitsValue_toDigits] at hpadded
    exact hpadded
  refine ⟨fun d hd => ?_, ?_⟩
  · exact isDigit_of_mem_padZeros isDigit_of_mem_toDigits d (hk ▸ List.mem_append_left _ hd)
  · rw [← hlength, ← hvalue, pow_add]
    push_cast
    field_simp

/-- Positional notation has the value that is written. -/
theorem textValue_positional (units : Nat) (exponent : Int) :
    textValue (positional units exponent) = units * 10 ^ exponent := by
  rw [positional]
  split
  · rename_i hge
    obtain ⟨n, rfl⟩ := Int.eq_ofNat_of_zero_le hge
    rw [textValue_digits isDigit_of_mem_toDigits, digitsValue_toDigits, tenTo_eq,
      Int.toNat_natCast, zpow_natCast]
    push_cast
    rfl
  · rename_i hlt
    obtain ⟨places, rfl⟩ : ∃ places : Nat, exponent = -(places : Int) :=
      ⟨(-exponent).toNat, by omega⟩
    have hplaces : 0 < places := by omega
    obtain ⟨hdigits, hvalue⟩ := fraction_value hplaces
      (Nat.mod_lt units (show 0 < 10 ^ places by positivity))
    have hsum : (units : ℚ) * 10 ^ (-(places : Int)) =
        (units / 10 ^ places : Nat) + (units % 10 ^ places : Nat) / 10 ^ places := by
      have hcast : (units : ℚ) =
          10 ^ places * (units / 10 ^ places : Nat) + (units % 10 ^ places : Nat) := by
        exact_mod_cast (Nat.div_add_mod units (10 ^ places)).symm
      rw [zpow_neg, zpow_natCast]
      conv_lhs => rw [hcast]
      field_simp
    simp only [neg_neg, Int.toNat_natCast, tenTo_eq]
    rw [hsum, ← hvalue]
    split
    · rename_i hnone
      rw [hnone, textValue_digits isDigit_of_mem_toDigits, digitsValue_toDigits]
      simp [digitsValue]
    · rw [textValue_point isDigit_of_mem_toDigits hdigits, digitsValue_toDigits]

theorem isDigit_or_eq_of_mem_positional {units : Nat} {exponent : Int} {c : Char}
    (h : c ∈ positional units exponent) : c.isDigit = true ∨ c = '.' := by
  rw [positional] at h
  split at h
  · exact Or.inl (isDigit_of_mem_toDigits c h)
  · dsimp only at h
    split at h
    · exact Or.inl (isDigit_of_mem_toDigits c h)
    · rcases List.mem_append.mp h with h | h
      · exact Or.inl (isDigit_of_mem_toDigits c h)
      · rcases List.mem_cons.mp h with rfl | h
        · exact Or.inr rfl
        · obtain ⟨k, hk⟩ := exists_trimFraction
            (padZeros (-exponent).toNat (Nat.toDigits 10 (units % tenTo (-exponent).toNat)))
          have hpadded := hk ▸ List.mem_append_left (List.replicate k '0') h
          exact Or.inl (isDigit_of_mem_padZeros isDigit_of_mem_toDigits c hpadded)

theorem exists_digit_positional (units : Nat) (exponent : Int) :
    ∃ d rest, d.isDigit = true ∧ positional units exponent = d :: rest := by
  have hopen : ∀ n rest, ∃ d rest', d.isDigit = true ∧
      Nat.toDigits 10 n ++ rest = d :: rest' := by
    intro n rest
    obtain ⟨d, ds, hds⟩ := List.exists_cons_of_ne_nil (Nat.toDigits_ne_nil (n := n) (b := 10))
    exact ⟨d, ds ++ rest, isDigit_of_mem_toDigits d (hds ▸ List.mem_cons_self), by rw [hds]; rfl⟩
  rw [positional]
  split
  · exact List.append_nil (Nat.toDigits 10 _) ▸ hopen _ []
  · dsimp only
    split
    · exact List.append_nil (Nat.toDigits 10 _) ▸ hopen _ []
    · exact hopen _ _

end

/-! ## Intervals -/

theorem zpow_mul_pow_toNat {p : ℚ} (hp : p ≠ 0) (e : Int) :
    p ^ e * p ^ (-e).toNat = p ^ e.toNat := by
  rw [← zpow_natCast, ← zpow_natCast, ← zpow_add₀ hp]
  congr 1
  omega

section

variable (k units d : Nat) (e : Int)

theorem cast_inUnits :
    ((units * (d * 10 ^ e.toNat) : Nat) : ℚ) = units * 10 ^ e * d * 10 ^ (-e).toNat := by
  push_cast
  rw [← zpow_mul_pow_toNat (by norm_num) e]
  ring

theorem le_inUnits_iff :
    k * 10 ^ (-e).toNat ≤ units * (d * 10 ^ e.toNat) ↔ (k : ℚ) ≤ units * 10 ^ e * d := by
  have hpos : (0 : ℚ) < 10 ^ (-e).toNat := by positivity
  rw [← Nat.cast_le (α := ℚ), cast_inUnits, Nat.cast_mul, Nat.cast_pow, Nat.cast_ofNat,
    mul_le_mul_iff_left₀ hpos]

theorem inUnits_le_iff :
    units * (d * 10 ^ e.toNat) ≤ k * 10 ^ (-e).toNat ↔ units * 10 ^ e * d ≤ (k : ℚ) := by
  have hpos : (0 : ℚ) < 10 ^ (-e).toNat := by positivity
  rw [← Nat.cast_le (α := ℚ), cast_inUnits, Nat.cast_mul, Nat.cast_pow, Nat.cast_ofNat,
    mul_le_mul_iff_left₀ hpos]

end

namespace Interval

variable {i : Interval}

/-- What lies in the interval by its units has its value there. -/
theorem contains_of_holds {units : Nat} {exponent : Int}
    (h : (i.inUnits exponent).holds units = true) : i.Contains (units * 10 ^ exponent) := by
  rw [holds] at h
  rw [Contains]
  by_cases hclosed : i.closed = true
  · have hsame : (i.inUnits exponent).closed = true := hclosed
    rw [if_pos hsame, Bool.and_eq_true, decide_eq_true_iff, decide_eq_true_iff] at h
    rw [if_pos hclosed]
    exact ⟨(le_inUnits_iff ..).mp h.1, (inUnits_le_iff ..).mp h.2⟩
  · have hsame : ¬(i.inUnits exponent).closed = true := hclosed
    rw [if_neg hsame, Bool.and_eq_true, decide_eq_true_iff, decide_eq_true_iff] at h
    rw [if_neg hclosed, ← not_le, ← not_le]
    exact ⟨fun hle => absurd ((inUnits_le_iff ..).mpr hle) (Nat.not_le_of_lt h.1),
      fun hle => absurd ((le_inUnits_iff ..).mpr hle) (Nat.not_le_of_lt h.2)⟩

theorem holds_of_lt {units : Nat} (hlower : i.lower < units * i.denominator)
    (hupper : units * i.denominator < i.upper) : i.holds units = true := by
  rw [holds]
  split
  · simp [hlower.le, hupper.le]
  · simp [hlower, hupper]

theorem holds_of_nearest? {units : Nat} (h : i.nearest? = some units) : i.holds units = true := by
  rw [nearest?] at h
  split at h
  · split at h <;> cases h <;> assumption
  · cases h
    assumption
  · cases h
    assumption
  · cases h

/-- One of the neighbours of the value lies in an interval that is wider than
a unit. -/
theorem isSome_nearest? (hpos : 0 < i.denominator) (hlower : i.lower < i.value)
    (hupper : i.value < i.upper) (hwide : i.lower + i.denominator < i.upper) :
    i.nearest?.isSome := by
  have hdown : i.value / i.denominator * i.denominator ≤ i.value := Nat.div_mul_le_self ..
  have hup : i.value < (i.value / i.denominator + 1) * i.denominator := by
    rw [Nat.add_mul, Nat.one_mul, Nat.mul_comm]
    exact Nat.lt_mul_div_succ _ hpos
  have hstep : (i.value / i.denominator + 1) * i.denominator =
      i.value / i.denominator * i.denominator + i.denominator := by ring
  have hhit : i.holds (i.value / i.denominator) = true ∨
      i.holds (i.value / i.denominator + 1) = true := by
    rcases Nat.lt_or_ge i.lower (i.value / i.denominator * i.denominator) with hlt | hge
    · exact Or.inl (holds_of_lt hlt (hdown.trans_lt hupper))
    · exact Or.inr (holds_of_lt (hlower.trans hup) (by omega))
  rw [nearest?]
  rcases hhit with h | h
  · rw [h]
    cases i.holds (i.value / i.denominator + 1) with
    | true => dsimp only; split <;> rfl
    | false => rfl
  · rw [h]
    cases i.holds (i.value / i.denominator) with
    | true => dsimp only; split <;> rfl
    | false => rfl

/-- The search ends with a hit if one of its grids has one. -/
theorem holds_search {exponent : Int} {grids : Nat}
    (h : ∃ k < grids, (i.inUnits (exponent - k)).nearest?.isSome) :
    (i.inUnits (i.search exponent grids).2).holds (i.search exponent grids).1 = true := by
  induction grids generalizing exponent with
  | zero =>
      obtain ⟨k, hk, -⟩ := h
      exact absurd hk (Nat.not_lt_zero k)
  | succ grids ih =>
      rw [search]
      split
      · exact holds_of_nearest? (by assumption)
      · rename_i hnone
        obtain ⟨k, hk, hhit⟩ := h
        cases k with
        | zero => simp [hnone] at hhit
        | succ k =>
            refine ih ⟨k, Nat.lt_of_succ_lt_succ hk, ?_⟩
            rwa [show exponent - 1 - k = exponent - (k + 1 : Nat) by omega]

/-! ## Seventeen digits -/

theorem lt_pow_digitCount (n : Nat) : n < 10 ^ digitCount n := by
  have hpos : 0 < digitCount n := List.length_pos_iff.mpr Nat.toDigits_ne_nil
  exact (Nat.length_toDigits_le_iff (by decide) hpos).mp le_rfl

theorem pow_digitCount_le {n : Nat} (h : 0 < n) : 10 ^ (digitCount n - 1) ≤ n := by
  by_contra hlt
  rw [not_le] at hlt
  rcases Nat.eq_zero_or_pos (digitCount n - 1) with h0 | hpos
  · rw [h0] at hlt
    omega
  · have hle := (Nat.length_toDigits_le_iff (by decide) hpos).mpr hlt
    change digitCount n ≤ digitCount n - 1 at hle
    omega

/-- The first digit of the value is not zero. -/
theorem pow_magnitude_le (hpos : 0 < i.denominator) (hvalue : 0 < i.value) :
    (10 : ℚ) ^ i.magnitude * i.denominator ≤ i.value := by
  rw [magnitude]
  split
  · rename_i hle
    have hquotient : 0 < i.value / i.denominator := Nat.div_pos hle hpos
    have hcount : 1 ≤ digitCount (i.value / i.denominator) :=
      List.length_pos_iff.mpr Nat.toDigits_ne_nil
    have hexponent : (digitCount (i.value / i.denominator) : Int) - 1 =
        (digitCount (i.value / i.denominator) - 1 : Nat) := by omega
    rw [hexponent, zpow_natCast]
    have hmul := Nat.mul_le_mul_right i.denominator (pow_digitCount_le hquotient)
    exact_mod_cast hmul.trans (Nat.div_mul_le_self ..)
  · have hlt := lt_pow_digitCount ((i.denominator - 1) / i.value)
    rw [Nat.div_lt_iff_lt_mul hvalue] at hlt
    have hle : i.denominator ≤ 10 ^ digitCount ((i.denominator - 1) / i.value) * i.value := by
      omega
    rw [zpow_neg, zpow_natCast, inv_mul_le_iff₀ (by positivity)]
    exact_mod_cast hle

end Interval

/-! ## The interval of a number -/

/-- How many quarters of the last place the lower end is away. -/
def below (b : Binary64) : Nat :=
  if b.mantissa = hiddenBit ∧ b.exponent ≠ minExponent then 1 else 2

section

variable {b c : Binary64} {q : ℚ}

theorem below_cases (b : Binary64) : below b = 1 ∧ b.mantissa = hiddenBit ∨ below b = 2 := by
  rw [below]
  split
  · exact Or.inl ⟨rfl, by tauto⟩
  · exact Or.inr rfl

theorem lower_of (b : Binary64) :
    (Interval.of b).lower = (4 * b.mantissa - below b) * 2 ^ (b.exponent - 2).toNat :=
  Nat.shiftLeft_eq ..

theorem value_of (b : Binary64) :
    (Interval.of b).value = 4 * b.mantissa * 2 ^ (b.exponent - 2).toNat :=
  Nat.shiftLeft_eq ..

theorem upper_of (b : Binary64) :
    (Interval.of b).upper = (4 * b.mantissa + 2) * 2 ^ (b.exponent - 2).toNat :=
  Nat.shiftLeft_eq ..

theorem denominator_of (b : Binary64) :
    (Interval.of b).denominator = 2 ^ (-(b.exponent - 2)).toNat := by
  rw [neg_sub]
  exact (Nat.shiftLeft_eq ..).trans (Nat.one_mul _)

/-- The last of the 17 grids has a hit. -/
theorem isSome_nearest?_last (hb : b.Canonical) (hpos : 0 < b.mantissa) :
    ((Interval.of b).inUnits ((Interval.of b).magnitude - 16)).nearest?.isSome := by
  have hlt := hb.mantissa_lt
  have hbelow := below_cases b
  rw [hiddenBit_eq] at hlt hbelow
  have hdenominator : 0 < (Interval.of b).denominator := by
    rw [denominator_of]
    positivity
  have hvalue : 0 < (Interval.of b).value := by
    rw [value_of]
    positivity
  have hunit := Interval.pow_magnitude_le hdenominator hvalue
  generalize (Interval.of b).magnitude = magnitude at hunit ⊢
  -- Ten to the sixteen units are no more than the value.
  have hunits : 10 ^ 16 * ((Interval.of b).denominator * 10 ^ (magnitude - 16).toNat) ≤
      (Interval.of b).value * 10 ^ (-(magnitude - 16)).toNat := by
    rw [inUnits_le_iff]
    refine le_trans (le_of_eq ?_) hunit
    rw [zpow_sub₀ (by norm_num)]
    push_cast
    field_simp
  have hscale : 0 < 2 ^ (b.exponent - 2).toNat * 10 ^ (-(magnitude - 16)).toNat := by positivity
  have hlower : ((Interval.of b).inUnits (magnitude - 16)).lower =
      (4 * b.mantissa - below b) *
        (2 ^ (b.exponent - 2).toNat * 10 ^ (-(magnitude - 16)).toNat) := by
    rw [← Nat.mul_assoc, ← lower_of]
    rfl
  have hmiddle : ((Interval.of b).inUnits (magnitude - 16)).value =
      4 * b.mantissa * (2 ^ (b.exponent - 2).toNat * 10 ^ (-(magnitude - 16)).toNat) := by
    rw [← Nat.mul_assoc, ← value_of]
    rfl
  have hupper : ((Interval.of b).inUnits (magnitude - 16)).upper =
      (4 * b.mantissa + 2) *
        (2 ^ (b.exponent - 2).toNat * 10 ^ (-(magnitude - 16)).toNat) := by
    rw [← Nat.mul_assoc, ← upper_of]
    rfl
  have hunits' : 10 ^ 16 * ((Interval.of b).inUnits (magnitude - 16)).denominator ≤
      ((Interval.of b).inUnits (magnitude - 16)).value := hunits
  have hunit' : 0 < ((Interval.of b).inUnits (magnitude - 16)).denominator :=
    Nat.mul_pos hdenominator (by rw [tenTo_eq]; positivity)
  generalize 2 ^ (b.exponent - 2).toNat * 10 ^ (-(magnitude - 16)).toNat = scale at *
  rw [hmiddle] at hunits'
  have hwide : ((Interval.of b).inUnits (magnitude - 16)).denominator < (2 + below b) * scale := by
    refine Nat.lt_of_mul_lt_mul_left (a := 10 ^ 16) (hunits'.trans_lt ?_)
    rw [← Nat.mul_assoc]
    refine Nat.mul_lt_mul_of_pos_right ?_ hscale
    omega
  refine Interval.isSome_nearest? hunit' ?_ ?_ ?_
  · rw [hlower, hmiddle]
    exact Nat.mul_lt_mul_of_pos_right (by omega) hscale
  · rw [hmiddle, hupper]
    exact Nat.mul_lt_mul_of_pos_right (by omega) hscale
  · rw [hlower, hupper]
    have hsum : 4 * b.mantissa + 2 = (4 * b.mantissa - below b) + (2 + below b) := by omega
    rw [hsum, Nat.add_mul]
    omega

/-- The text of a positive number has a value in its interval. -/
theorem contains_textValue (hb : b.Canonical) (hpos : 0 < b.mantissa) :
    (Interval.of b).Contains (textValue (positional (shortest b).1 (shortest b).2)) := by
  rw [textValue_positional]
  exact Interval.contains_of_holds
    (Interval.holds_search ⟨16, by decide, isSome_nearest?_last hb hpos⟩)

theorem scaled_le_iff (k : Nat) (x : Int) (q : ℚ) :
    ((k * 2 ^ x.toNat : Nat) : ℚ) ≤ q * (2 ^ (-x).toNat : Nat) ↔ k * 2 ^ x ≤ q := by
  have hpos : (0 : ℚ) < 2 ^ (-x).toNat := by positivity
  push_cast
  rw [← zpow_mul_pow_toNat (by norm_num) x, ← mul_assoc, mul_le_mul_iff_left₀ hpos]

theorem le_scaled_iff (k : Nat) (x : Int) (q : ℚ) :
    q * (2 ^ (-x).toNat : Nat) ≤ ((k * 2 ^ x.toNat : Nat) : ℚ) ↔ q ≤ k * 2 ^ x := by
  have hpos : (0 : ℚ) < 2 ^ (-x).toNat := by positivity
  push_cast
  rw [← zpow_mul_pow_toNat (by norm_num) x, ← mul_assoc, mul_le_mul_iff_left₀ hpos]

/-- The ends of the interval in quarters of the last place; they belong to it
if the mantissa is even. -/
theorem bounds_of_contains (h : (Interval.of b).Contains q) :
    ((4 * b.mantissa - below b : Nat) * 2 ^ (b.exponent - 2) ≤ q ∧
        q ≤ (4 * b.mantissa + 2 : Nat) * 2 ^ (b.exponent - 2)) ∧
      (b.mantissa % 2 = 1 → (4 * b.mantissa - below b : Nat) * 2 ^ (b.exponent - 2) < q ∧
        q < (4 * b.mantissa + 2 : Nat) * 2 ^ (b.exponent - 2)) := by
  have hclosed : (Interval.of b).closed = true ↔ b.mantissa % 2 = 0 := decide_eq_true_iff
  rw [Interval.Contains, lower_of, upper_of, denominator_of] at h
  split at h
  · rename_i heven
    rw [scaled_le_iff, le_scaled_iff] at h
    exact ⟨h, fun hodd => absurd (hclosed.mp heven) (by omega)⟩
  · rw [← not_le, ← not_le, scaled_le_iff, le_scaled_iff, not_le, not_le] at h
    exact ⟨⟨h.1.le, h.2.le⟩, fun _ => h⟩

/-- The intervals of two numbers have nothing in common: where they meet, one
of the two mantissas is odd. -/
theorem not_contains_of_lt (hb : b.Canonical) (hc : c.Canonical) (h : b.magnitude < c.magnitude)
    (hq : (Interval.of b).Contains q) : ¬(Interval.of c).Contains q := by
  intro hq'
  obtain ⟨⟨-, hupper⟩, hodd⟩ := bounds_of_contains hq
  obtain ⟨⟨hlower, -⟩, hodd'⟩ := bounds_of_contains hq'
  have hlt := hb.mantissa_lt
  have hbelow := below_cases c
  have hunit : (0 : ℚ) < 2 ^ (b.exponent - 2) := by positivity
  have hmeet : ∀ k : Nat, (k : ℚ) * 2 ^ (b.exponent - 2) ≤ q → k ≤ 4 * b.mantissa + 2 :=
    fun k hk => by exact_mod_cast le_of_mul_le_mul_right (hk.trans hupper) hunit
  rw [hb.magnitude_lt_iff hc] at h
  rw [hiddenBit_eq] at hlt hbelow
  rcases h with hexponent | ⟨hexponent, hmantissa⟩
  · -- The last place of the greater number is at least twice as large.
    have hge := hb.exponent_ge
    have hnormal : 2 ^ 52 ≤ c.mantissa := hc.normal.resolve_right (by omega)
    have hfirst : c.mantissa = 2 ^ 52 → below c = 1 := fun hm => if_pos ⟨hm, by omega⟩
    have hplace : (2 : ℚ) * 2 ^ (b.exponent - 2) ≤ 2 ^ (c.exponent - 2) := by
      rw [← zpow_one_add₀ (by norm_num)]
      exact zpow_le_zpow_right₀ (by norm_num) (by omega)
    have hlower' : (2 * (4 * c.mantissa - below c) : Nat) * (2 : ℚ) ^ (b.exponent - 2) ≤ q := by
      calc
        ((2 * (4 * c.mantissa - below c) : Nat) : ℚ) * 2 ^ (b.exponent - 2)
            = (4 * c.mantissa - below c : Nat) * (2 * 2 ^ (b.exponent - 2)) := by
          rw [Nat.cast_mul, Nat.cast_ofNat]
          ring
        _ ≤ (4 * c.mantissa - below c : Nat) * 2 ^ (c.exponent - 2) := by gcongr
        _ ≤ q := hlower
    have hle := hmeet _ hlower'
    have hsame : 2 * (4 * c.mantissa - below c) = 4 * b.mantissa + 2 := by omega
    rw [hsame] at hlower'
    exact absurd (hodd (by omega)).2 (not_lt.mpr hlower')
  · rw [← hexponent] at hlower hodd'
    have hle := hmeet _ hlower
    have hsame : 4 * c.mantissa - below c = 4 * b.mantissa + 2 := by omega
    rw [hsame] at hlower hodd'
    rcases Nat.mod_two_eq_zero_or_one b.mantissa with heven | hb'
    · exact absurd (hodd' (by omega)).1 (not_lt.mpr hupper)
    · exact absurd (hodd hb').2 (not_lt.mpr hlower)

/-! ## Texts of numbers -/

/-- The text of a number without its sign. -/
def unsigned (b : Binary64) : List Char :=
  if b.mantissa = 0 then ['0'] else positional (shortest b).1 (shortest b).2

theorem exists_digit_unsigned (b : Binary64) :
    ∃ d rest, d.isDigit = true ∧ unsigned b = d :: rest := by
  rw [unsigned]
  split
  · exact ⟨'0', [], rfl, rfl⟩
  · exact exists_digit_positional _ _

theorem isDigit_or_eq_of_mem_unsigned {b : Binary64} {c : Char} (h : c ∈ unsigned b) :
    c.isDigit = true ∨ c = '.' := by
  rw [unsigned] at h
  split at h
  · rw [List.mem_singleton.mp h]
    exact Or.inl rfl
  · exact isDigit_or_eq_of_mem_positional h

theorem unsigned_ne (b : Binary64) (cs : List Char) : unsigned b ≠ '-' :: cs := by
  intro h
  obtain ⟨d, rest, hd, hunsigned⟩ := exists_digit_unsigned b
  rw [h] at hunsigned
  rw [← (List.cons.inj hunsigned).1] at hd
  cases hd

theorem textValue_unsigned_pos (hb : b.Canonical) (hpos : 0 < b.mantissa) :
    0 < textValue (unsigned b) := by
  have hlower := (bounds_of_contains (contains_textValue hb hpos)).1.1
  have hbelow := below_cases b
  rw [hiddenBit_eq] at hbelow
  have hmantissa : 0 < 4 * b.mantissa - below b := by omega
  rw [unsigned, if_neg hpos.ne']
  refine lt_of_lt_of_le ?_ hlower
  positivity

/-- A number in canonical form is known by its text and its sign. -/
theorem unsigned_inj (hb : b.Canonical) (hc : c.Canonical) (h : unsigned b = unsigned c) :
    b.mantissa = c.mantissa ∧ b.exponent = c.exponent := by
  have hzero : textValue ['0'] = 0 := by
    rw [textValue_digits (by simp)]
    simp [digitsValue]
  rcases Nat.eq_zero_or_pos b.mantissa with hb0 | hbpos <;>
    rcases Nat.eq_zero_or_pos c.mantissa with hc0 | hcpos
  · refine hb.magnitude_inj hc ?_
    rw [magnitude, magnitude, hb0, hc0, Nat.cast_zero, zero_mul, zero_mul]
  · have hvalue := textValue_unsigned_pos hc hcpos
    rw [← h, unsigned, if_pos hb0, hzero] at hvalue
    exact absurd hvalue (lt_irrefl _)
  · have hvalue := textValue_unsigned_pos hb hbpos
    rw [h, unsigned, if_pos hc0, hzero] at hvalue
    exact absurd hvalue (lt_irrefl _)
  · have hq := contains_textValue hb hbpos
    have hq' := contains_textValue hc hcpos
    rw [unsigned, unsigned, if_neg hbpos.ne', if_neg hcpos.ne'] at h
    rw [h] at hq
    refine hb.magnitude_inj hc (le_antisymm ?_ ?_)
    · exact not_lt.mp fun hlt => not_contains_of_lt hc hb hlt hq' hq
    · exact not_lt.mp fun hlt => not_contains_of_lt hb hc hlt hq hq'

end

theorem write_finite {x : Float} {b : Binary64} (h : ofFloat? x = some b) :
    (write x).toList = if b.negative then '-' :: unsigned b else unsigned b := by
  rw [write, h]
  exact String.toList_ofList ..

/-- The text of a finite number has a digit at its front or right behind its
sign. -/
theorem write_finite_ne {x : Float} {b : Binary64} (h : ofFloat? x = some b) {c d : Char}
    (hc : c.isDigit = false) (hd : d.isDigit = false) (rest : List Char) :
    (write x).toList ≠ c :: d :: rest := by
  intro htext
  obtain ⟨e, rest', he, hunsigned⟩ := exists_digit_unsigned b
  rw [write_finite h, hunsigned] at htext
  split at htext
  · obtain ⟨-, htext⟩ := List.cons.inj htext
    rw [(List.cons.inj htext).1, hd] at he
    cases he
  · rw [(List.cons.inj htext).1, hc] at he
    cases he

/-- A number that is not finite is infinite or none, and its text says which. -/
theorem write_not_finite {x : Float} (h : ofFloat? x = none) :
    x.toModel.unpack = .notANumber ∧ write x = "NaN" ∨
      x.toModel.unpack = .infinity .negative ∧ write x = "-inf" ∨
      x.toModel.unpack = .infinity .positive ∧ write x = "inf" := by
  have hnan : x.isNaN = x.toModel.unpack.isNaN := rfl
  have hzero : (0 : Float).toModel.unpack = .zero .positive := by
    with_unfolding_all rfl
  have hneg : x < 0 ↔ x.toModel.unpack.lt (.zero .positive) = true := by
    rw [← hzero]
    change decide (x.toModel.unpack.lt (Float.toModel 0).unpack = true) = true ↔ _
    rw [decide_eq_true_iff]
  have hunpacked := ofFloat?_eq_ofUnpacked? x
  rw [h] at hunpacked
  rw [write, h]
  dsimp only
  cases hx : x.toModel.unpack with
  | notANumber =>
      rw [hx] at hnan
      exact Or.inl ⟨rfl, if_pos hnan⟩
  | infinity sign =>
      rw [hx] at hnan hneg
      rw [if_neg (Bool.eq_false_iff.mp hnan)]
      cases sign with
      | negative => exact Or.inr (Or.inl ⟨rfl, if_pos (hneg.mpr rfl)⟩)
      | positive => exact Or.inr (Or.inr ⟨rfl, if_neg fun hlt => nomatch hneg.mp hlt⟩)
  | zero sign =>
      rw [hx] at hunpacked
      cases hunpacked
  | finite sign mantissa exponent hpos =>
      rw [hx] at hunpacked
      cases hunpacked

/-- The text of a number is on one line. -/
theorem newline_notMem_write (x : Float) : '\n' ∉ (write x).toList := by
  cases h : ofFloat? x with
  | some b =>
      have hunsigned : '\n' ∉ unsigned b := by
        intro hmem
        rcases isDigit_or_eq_of_mem_unsigned hmem with hdigit | hpoint
        · cases hdigit
        · cases hpoint
      rw [write_finite h]
      split
      · exact fun hmem => hunsigned ((List.mem_cons.mp hmem).resolve_left (by decide))
      · exact hunsigned
  | none =>
      rcases write_not_finite h with ⟨-, hw⟩ | ⟨-, hw⟩ | ⟨-, hw⟩ <;> rw [hw] <;> decide

theorem write_ne_of_not_finite {x y : Float} {b : Binary64} (hx : ofFloat? x = some b)
    (hy : ofFloat? y = none) : write x ≠ write y := by
  intro h
  rcases write_not_finite hy with ⟨-, hw⟩ | ⟨-, hw⟩ | ⟨-, hw⟩ <;> rw [hw] at h
  · exact write_finite_ne hx (c := 'N') (d := 'a') rfl rfl ['N'] (h ▸ rfl)
  · exact write_finite_ne hx (c := '-') (d := 'i') rfl rfl ['n', 'f'] (h ▸ rfl)
  · exact write_finite_ne hx (c := 'i') (d := 'n') rfl rfl ['f'] (h ▸ rfl)

/-- Different numbers have different texts. -/
theorem write_injective : Function.Injective write := by
  intro x y h
  cases hx : ofFloat? x with
  | some b =>
      cases hy : ofFloat? y with
      | none => exact absurd h (write_ne_of_not_finite hx hy)
      | some c =>
          have hsame : b.negative = c.negative ∧ unsigned b = unsigned c := by
            have htext := congrArg String.toList h
            rw [write_finite hx, write_finite hy] at htext
            cases hb : b.negative <;> cases hc : c.negative <;> rw [hb, hc] at htext
            · exact ⟨rfl, htext⟩
            · exact absurd htext (unsigned_ne b _)
            · exact absurd htext.symm (unsigned_ne c _)
            · exact ⟨rfl, (List.cons.inj htext).2⟩
          obtain ⟨hm, hexp⟩ := unsigned_inj (canonical_of_ofFloat? hx) (canonical_of_ofFloat? hy)
            hsame.2
          obtain rfl : b = c := by
            cases b
            cases c
            simp_all
          exact ofFloat?_inj hx hy
  | none =>
      cases hy : ofFloat? y with
      | some c => exact absurd h.symm (write_ne_of_not_finite hy hx)
      | none =>
          refine eq_of_unpack_eq ?_
          rcases write_not_finite hx with ⟨hu, hw⟩ | ⟨hu, hw⟩ | ⟨hu, hw⟩ <;>
            rcases write_not_finite hy with ⟨hu', hw'⟩ | ⟨hu', hw'⟩ | ⟨hu', hw'⟩ <;>
            simp_all

end Pixelwise.Decimal
