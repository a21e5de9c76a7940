/-
Comparing — finite numbers are ordered as the rationals that they are.

In canonical form the greater of two exponents decides, and at the same
exponent the greater mantissa (`Canonical.compare_magnitude`), so that the
form of a magnitude is the only one (`Canonical.magnitude_inj`).

Main statements: `lt_iff_value_lt`, `le_iff_value_le`.
-/
import Mathlib
import Pixelwise.Proofs.Packing

namespace Pixelwise.Binary64

open Float.Model

/-! ## Magnitudes -/

theorem magnitude_nonneg (b : Binary64) : 0 ≤ b.magnitude := by
  unfold magnitude
  positivity

theorem magnitude_pos {b : Binary64} (h : 0 < b.mantissa) : 0 < b.magnitude := by
  unfold magnitude
  positivity

theorem value_of_negative {b : Binary64} (h : b.negative = true) : b.value = -b.magnitude :=
  if_pos h

theorem value_of_positive {b : Binary64} (h : b.negative = false) : b.value = b.magnitude :=
  if_neg (Bool.eq_false_iff.mp h)

@[simp] theorem value_zero (negative : Bool) (exponent : Int) :
    value ⟨negative, 0, exponent⟩ = 0 := by
  simp [value, magnitude]

/-- A mantissa is moved up as its exponent goes down. -/
theorem magnitude_shiftLeft (negative : Bool) (m s : Nat) (e : Int) :
    magnitude ⟨negative, m <<< s, e - s⟩ = m * 2 ^ e := by
  rw [magnitude, Nat.shiftLeft_eq, zpow_sub₀ (by norm_num), zpow_natCast]
  push_cast
  field_simp

@[simp] theorem settled_magnitude (b : Binary64) : b.settled.magnitude = b.magnitude := by
  rw [settled]
  split
  · rename_i h0
    simp [magnitude, h0]
  · exact magnitude_shiftLeft ..

namespace Canonical

variable {a b : Binary64}

/-- Of two numbers in canonical form the one with the greater exponent is
greater. -/
theorem magnitude_lt (ha : a.Canonical) (hb : b.Canonical) (h : a.exponent < b.exponent) :
    a.magnitude < b.magnitude := by
  have hge := ha.exponent_ge
  have hnormal : hiddenBit ≤ b.mantissa := hb.normal.resolve_right (by omega)
  have hlt : (a.mantissa : ℚ) < 2 * hiddenBit := by exact_mod_cast ha.mantissa_lt
  calc
    a.magnitude < 2 * hiddenBit * 2 ^ a.exponent := mul_lt_mul_of_pos_right hlt (by positivity)
    _ = hiddenBit * 2 ^ (a.exponent + 1) := by rw [zpow_add_one₀ (by norm_num)]; ring
    _ ≤ b.mantissa * 2 ^ b.exponent := by
      gcongr
      · norm_num
      · omega

theorem compare_magnitude (ha : a.Canonical) (hb : b.Canonical) :
    (compare a.exponent b.exponent).then (compare a.mantissa b.mantissa) =
      compare a.magnitude b.magnitude := by
  rcases lt_trichotomy a.exponent b.exponent with hlt | heq | hgt
  · rw [compare_lt_iff_lt.mpr hlt, compare_lt_iff_lt.mpr (ha.magnitude_lt hb hlt)]
    rfl
  · have hpos : (0 : ℚ) < 2 ^ b.exponent := by positivity
    have hcast := (Nat.strictMono_cast (α := ℚ)).cmp_map_eq a.mantissa b.mantissa
    rw [compare_eq_iff_eq.mpr heq, magnitude, magnitude, heq, ← cmp_eq_compare, ← cmp_eq_compare,
      cmp_mul_pos_right hpos, hcast]
    rfl
  · rw [compare_gt_iff_gt.mpr hgt, compare_gt_iff_gt.mpr (hb.magnitude_lt ha hgt)]
    rfl

theorem magnitude_lt_iff (ha : a.Canonical) (hb : b.Canonical) :
    a.magnitude < b.magnitude ↔
      a.exponent < b.exponent ∨ a.exponent = b.exponent ∧ a.mantissa < b.mantissa := by
  rw [← compare_lt_iff_lt, ← ha.compare_magnitude hb, Ordering.then_eq_lt, compare_lt_iff_lt,
    compare_eq_iff_eq, compare_lt_iff_lt]

theorem magnitude_inj (ha : a.Canonical) (hb : b.Canonical) (h : a.magnitude = b.magnitude) :
    a.mantissa = b.mantissa ∧ a.exponent = b.exponent := by
  rw [← compare_eq_iff_eq, ← ha.compare_magnitude hb, Ordering.then_eq_eq, compare_eq_iff_eq,
    compare_eq_iff_eq] at h
  exact h.symm

end Canonical

/-! ## Order -/

theorem compare_neg_neg (p q : ℚ) : compare (-p) (-q) = (compare p q).swap := by
  have hanti : StrictAnti (fun q : ℚ => -q) := fun _ _ => neg_lt_neg
  rw [← cmp_eq_compare, ← cmp_eq_compare, cmp_swap]
  exact hanti.cmp_map_eq p q

/-- Unpacked numbers are compared as rationals are. -/
theorem compare_unpacked {u w : UnpackedFloat} {a b : Binary64} (hu : ofUnpacked? u = some a)
    (hw : ofUnpacked? w = some b) (ha : a.Canonical) (hb : b.Canonical) :
    u.compare w = some (compare a.value b.value) := by
  cases u with
  | infinity s => cases hu
  | notANumber => cases hu
  | zero s =>
      cases hu
      rw [value_zero]
      cases w with
      | infinity t => cases hw
      | notANumber => cases hw
      | zero t =>
          cases hw
          rw [value_zero, compare_eq_iff_eq.mpr rfl]
          rfl
      | finite t n f hn =>
          cases hw
          have hpos := magnitude_pos (b := ⟨t == .negative, n, f⟩) hn
          cases t with
          | negative => exact (congrArg some (compare_gt_iff_gt.mpr (neg_neg_of_pos hpos))).symm
          | positive => exact (congrArg some (compare_lt_iff_lt.mpr hpos)).symm
  | finite s m e hm =>
      cases hu
      have hpos := magnitude_pos (b := ⟨s == .negative, m, e⟩) hm
      cases w with
      | infinity t => cases hw
      | notANumber => cases hw
      | zero t =>
          cases hw
          rw [value_zero]
          cases s with
          | negative => exact (congrArg some (compare_lt_iff_lt.mpr (neg_neg_of_pos hpos))).symm
          | positive => exact (congrArg some (compare_gt_iff_gt.mpr hpos)).symm
      | finite t n f hn =>
          cases hw
          have hpos' := magnitude_pos (b := ⟨t == .negative, n, f⟩) hn
          have hcompare := ha.compare_magnitude hb
          cases s <;> cases t
          · exact congrArg some
              ((congrArg Ordering.swap hcompare).trans (compare_neg_neg _ _).symm)
          · exact (congrArg some (compare_lt_iff_lt.mpr ((neg_neg_of_pos hpos).trans hpos'))).symm
          · exact (congrArg some (compare_gt_iff_gt.mpr ((neg_neg_of_pos hpos').trans hpos))).symm
          · exact congrArg some hcompare

section
variable {x y : Float} {a b : Binary64} (hx : ofFloat? x = some a) (hy : ofFloat? y = some b)
include hx hy

theorem compare_unpack :
    x.toModel.unpack.compare y.toModel.unpack = some (compare a.value b.value) := by
  have ha := canonical_of_ofFloat? hx
  have hb := canonical_of_ofFloat? hy
  rw [ofFloat?_eq_ofUnpacked?] at hx hy
  exact compare_unpacked hx hy ha hb

theorem lt_iff_value_lt : x < y ↔ a.value < b.value := by
  have hlt : x < y ↔ x.toModel.unpack.lt y.toModel.unpack = true := by
    change decide (x.toModel.unpack.lt y.toModel.unpack = true) = true ↔ _
    rw [decide_eq_true_iff]
  rw [hlt, UnpackedFloat.lt, compare_unpack hx hy, ← compare_lt_iff_lt]
  cases compare a.value b.value <;> decide

theorem le_iff_value_le : x ≤ y ↔ a.value ≤ b.value := by
  have hle : x ≤ y ↔ x.toModel.unpack.le y.toModel.unpack = true := by
    change decide (x.toModel.unpack.le y.toModel.unpack = true) = true ↔ _
    rw [decide_eq_true_iff]
  rw [hle, UnpackedFloat.le, compare_unpack hx hy, ← compare_le_iff_le]
  cases compare a.value b.value <;> decide

end

end Pixelwise.Binary64
