/-
Packing — finite numbers and the bits they are packed into.

The word of a number has a sign, an exponent and the stored bits of a
mantissa (`join`), and what is read off it is in canonical form.
Whoever writes a mantissa and an exponent gets the number of the same value
in that form (`ofFloat?_toFloat`), so a finite number is known by its
canonical form (`ofFloat?_inj`).  Packing a number that was unpacked, or
rounded, goes by the same form (`ofFloat?_pack`).
-/
import Mathlib
import Pixelwise.Binary64.Value

namespace Pixelwise.Binary64

open Float.Model Float.Model.UnpackedFloat

theorem hiddenBit_eq : hiddenBit = 2 ^ 52 := rfl

theorem signBit_eq : signBit = 2 ^ 63 := rfl

/-! ## Words -/

/-- The finite number of a word. -/
def ofWord? (word : Nat) : Option Binary64 :=
  if word / hiddenBit % 2048 = 2047 then none
  else if word / hiddenBit % 2048 = 0 then
    some ⟨signBit ≤ word, word % hiddenBit, minExponent⟩
  else some ⟨signBit ≤ word, word % hiddenBit + hiddenBit, (word / hiddenBit % 2048 : Nat) - 1075⟩

theorem ofFloat?_eq_ofWord? (x : Float) : ofFloat? x = ofWord? x.toBits.toNat := rfl

theorem canonical_of_ofWord? {word : Nat} {b : Binary64} (h : ofWord? word = some b) :
    b.Canonical := by
  have hstored : word % hiddenBit < hiddenBit := Nat.mod_lt _ (by decide)
  have hbiased : word / hiddenBit % 2048 < 2048 := Nat.mod_lt _ (by decide)
  rw [ofWord?] at h
  split at h
  · cases h
  · split at h <;> cases h
    · exact ⟨by dsimp only; omega, Int.le_refl _, by dsimp only; decide, Or.inr rfl⟩
    · refine ⟨by dsimp only; omega, ?_, by dsimp only; omega, Or.inl (Nat.le_add_left ..)⟩
      dsimp only [minExponent]
      omega

theorem canonical_of_ofFloat? {x : Float} {b : Binary64} (h : ofFloat? x = some b) :
    b.Canonical :=
  canonical_of_ofWord? h

/-- The word of a sign, an exponent as it is stored, and the stored bits of a
mantissa. -/
def join (negative : Bool) (biased stored : Nat) : Nat :=
  (if negative then signBit else 0) + (biased * hiddenBit + stored)

section
variable {negative : Bool} {biased stored : Nat}

theorem join_mod (hstored : stored < hiddenBit) :
    join negative biased stored % hiddenBit = stored := by
  rw [hiddenBit_eq] at *
  rw [join, hiddenBit_eq, signBit_eq]
  split <;> omega

variable (hbiased : biased < 2047) (hstored : stored < hiddenBit)
include hbiased hstored

theorem join_lt : join negative biased stored < 2 ^ 64 := by
  rw [hiddenBit_eq] at hstored
  rw [join, hiddenBit_eq, signBit_eq]
  split <;> omega

/-- Words without a sign come before that of infinity. -/
theorem join_false_le : join false biased stored ≤ 2047 * hiddenBit := by
  rw [hiddenBit_eq] at *
  rw [join, hiddenBit_eq, if_neg Bool.false_ne_true]
  omega

theorem join_div : join negative biased stored / hiddenBit % 2048 = biased := by
  rw [hiddenBit_eq] at *
  rw [join, hiddenBit_eq, signBit_eq]
  split <;> omega

theorem signBit_le_join : decide (signBit ≤ join negative biased stored) = negative := by
  rw [hiddenBit_eq] at *
  rw [join, hiddenBit_eq, signBit_eq]
  cases negative
  · exact decide_eq_false (by simp; omega)
  · exact decide_eq_true (by simp)

theorem ofWord?_join :
    ofWord? (join negative biased stored) =
      if biased = 0 then some ⟨negative, stored, minExponent⟩
      else some ⟨negative, stored + hiddenBit, biased - 1075⟩ := by
  rw [ofWord?, join_div hbiased hstored, join_mod hstored,
    signBit_le_join hbiased hstored, if_neg (Nat.ne_of_lt hbiased)]

end

/-! ## Bits that are unpacked -/

/-- The finite number that was unpacked, if it is one. -/
def ofUnpacked? : UnpackedFloat → Option Binary64
  | .infinity _ | .notANumber => none
  | .zero sign => some ⟨sign == .negative, 0, minExponent⟩
  | .finite sign mantissa exponent _ => some ⟨sign == .negative, mantissa, exponent⟩

section
variable (bits : BitVec 64)

theorem toNat_unpackExponent :
    (@unpackExponent Format.binary64 bits).toNat = bits.toNat / hiddenBit % 2048 := by
  rw [unpackExponent_def, BitVec.extractLsb'_toNat, Nat.shiftRight_eq_div_pow]
  rfl

theorem toNat_unpackMantissa :
    (@unpackMantissa Format.binary64 bits).toNat = bits.toNat % hiddenBit := by
  rw [unpackMantissa_def, BitVec.extractLsb'_toNat, Nat.shiftRight_zero]
  rfl

theorem negative_unpackSign :
    (Sign.ofBitVec (@unpackSign Format.binary64 bits) == .negative) =
      decide (signBit ≤ bits.toNat) := by
  have hlt := bits.isLt
  have hsign : (@unpackSign Format.binary64 bits).toNat = bits.toNat / signBit := by
    rw [unpackSign_def, BitVec.extractLsb'_toNat, Nat.shiftRight_eq_div_pow]
    change bits.toNat / 2 ^ 63 % 2 = bits.toNat / 2 ^ 63
    omega
  rw [signBit_eq] at *
  rw [Sign.ofBitVec]
  split <;> symm
  · rename_i h
    rw [h] at hsign
    simp at hsign
    exact decide_eq_false (by omega)
  · rename_i h
    rw [← BitVec.toNat_inj, hsign] at h
    exact decide_eq_true (by simp at h; omega)

theorem toNat_append_hiddenBit (stored : BitVec 52) :
    (1#1 ++ stored).toNat = stored.toNat + hiddenBit := by
  rw [BitVec.toNat_append, ← Nat.shiftLeft_add_eq_or_of_lt stored.isLt]
  exact Nat.add_comm ..

theorem ofUnpacked?_unpack :
    ofUnpacked? (UnpackedFloat.unpack Format.binary64 bits) = ofWord? bits.toNat := by
  have hones : @unpackExponent Format.binary64 bits = -1#_ ↔
      (@unpackExponent Format.binary64 bits).toNat = 2047 := by
    rw [← BitVec.toNat_inj]
    rfl
  have hzeros : @unpackExponent Format.binary64 bits = 0#_ ↔
      (@unpackExponent Format.binary64 bits).toNat = 0 := by
    rw [← BitVec.toNat_inj]
    rfl
  rw [UnpackedFloat.unpack, ofWord?, ← toNat_unpackExponent, ← toNat_unpackMantissa,
    ← negative_unpackSign]
  simp only [hones, hzeros]
  split
  · split <;> rfl
  · split
    · rename_i hnear
      split
      · rename_i hzero
        rw [hzero]
        rfl
      · rw [hnear]
        rfl
    · rw [← toNat_append_hiddenBit]
      rfl

end

theorem ofFloat?_eq_ofUnpacked? (x : Float) : ofFloat? x = ofUnpacked? x.toModel.unpack :=
  (ofUnpacked?_unpack x.toModel.toBits.toBitVec).symm

theorem isFinite_iff {x : Float} : x.isFinite = true ↔ ∃ b, ofFloat? x = some b := by
  rw [ofFloat?_eq_ofUnpacked?]
  change x.toModel.unpack.isFinite = true ↔ _
  cases x.toModel.unpack <;> simp [ofUnpacked?, UnpackedFloat.isFinite]

theorem ofUnpacked?_inj {x y : UnpackedFloat} {b : Binary64} (hx : ofUnpacked? x = some b)
    (hy : ofUnpacked? y = some b) : x = y := by
  cases x <;> cases y <;> simp only [ofUnpacked?, reduceCtorEq, Option.some.injEq] at hx hy <;>
    subst hx
  case zero.zero s t => cases s <;> cases t <;> simp_all
  case zero.finite s t m e hm => simp at hy; omega
  case finite.zero s m e hm t => simp at hy; omega
  case finite.finite s m e hm t n f hn => cases s <;> cases t <;> simp_all

/-- A number is known by what its bits are unpacked to. -/
theorem eq_of_unpack_eq {x y : Float} (h : x.toModel.unpack = y.toModel.unpack) : x = y := by
  have hbits := (unpack_inj_of_valid x.toModel.valid y.toModel.valid).mp h
  exact Float.toBits_inj.mp (UInt64.toBitVec_inj.mp hbits)

/-- A finite number is known by its sign, mantissa and exponent. -/
theorem ofFloat?_inj {x y : Float} {b : Binary64} (hx : ofFloat? x = some b)
    (hy : ofFloat? y = some b) : x = y := by
  rw [ofFloat?_eq_ofUnpacked?] at hx hy
  exact eq_of_unpack_eq (ofUnpacked?_inj hx hy)

/-! ## Numbers that are written -/

/-- Words of finite numbers are kept as they are. -/
theorem toNat_toBits_ofBits {word : Nat} (hlt : word < 2 ^ 64)
    (h : word / hiddenBit % 2048 ≠ 2047) :
    (Float.ofBits (UInt64.ofNat word)).toBits.toNat = word := by
  have hbits : (UInt64.ofNat word).toBitVec.toNat = word := by
    simpa using Nat.mod_eq_of_lt hlt
  have hexp := toNat_unpackExponent (UInt64.ofNat word).toBitVec
  rw [hbits] at hexp
  have hnan : @isNaNBits Format.binary64 (UInt64.ofNat word).toBitVec = false := by
    rw [isNaNBits, decide_eq_false_iff_not]
    rintro ⟨hones, -⟩
    rw [hones] at hexp
    exact h hexp.symm
  change (UnpackedFloat.pack Format.binary64
    (UnpackedFloat.unpack Format.binary64 (UInt64.ofNat word).toBitVec)).toNat = word
  rw [pack_unpack, if_neg (by simp [hnan]), hbits]

theorem ofFloat?_ofBits_join {negative : Bool} {biased stored : Nat} (hbiased : biased < 2047)
    (hstored : stored < hiddenBit) :
    ofFloat? (Float.ofBits (UInt64.ofNat (join negative biased stored))) =
      if biased = 0 then some ⟨negative, stored, minExponent⟩
      else some ⟨negative, stored + hiddenBit, biased - 1075⟩ := by
  rw [ofFloat?_eq_ofWord?, toNat_toBits_ofBits (join_lt hbiased hstored),
    ofWord?_join hbiased hstored]
  rw [join_div hbiased hstored]
  exact Nat.ne_of_lt hbiased

/-- How far a mantissa is moved up: as far as its highest bit and the exponent
allow. -/
def shift (b : Binary64) : Nat :=
  min (52 - b.mantissa.log2) (b.exponent - minExponent).toNat

/-- The same number with its mantissa moved up. -/
def settled (b : Binary64) : Binary64 :=
  if b.mantissa = 0 then ⟨b.negative, 0, minExponent⟩
  else ⟨b.negative, b.mantissa <<< b.shift, b.exponent - b.shift⟩

section
variable {b : Binary64}

@[simp] theorem settled_negative (b : Binary64) : b.settled.negative = b.negative := by
  rw [settled]
  split <;> rfl

theorem toFloat_eq_ofBits_join (b : Binary64) :
    b.toFloat = Float.ofBits (UInt64.ofNat
      (if b.mantissa <<< b.shift < hiddenBit then join b.negative 0 (b.mantissa <<< b.shift)
      else join b.negative (b.exponent - b.shift + 1075).toNat
        (b.mantissa <<< b.shift - hiddenBit))) := by
  rw [toFloat, ← shift, join, join, Nat.zero_mul, Nat.zero_add]
  cases b.negative
  · rw [if_neg Bool.false_ne_true, if_neg Bool.false_ne_true, Nat.zero_add, Nat.zero_add]
  · rw [if_pos rfl, if_pos rfl, apply_ite (signBit + ·)]

theorem log2_le {m : Nat} (hm : m < 2 * hiddenBit) : m.log2 ≤ 52 := by
  by_cases h0 : m = 0
  · rw [h0]
    decide
  · exact Nat.le_of_lt_succ ((Nat.log2_lt h0).mpr hm)

theorem shifted_lt (hm : b.mantissa < 2 * hiddenBit) :
    b.mantissa <<< b.shift < 2 * hiddenBit := by
  have hlog := log2_le hm
  have hle : b.mantissa.log2 + 1 + b.shift ≤ 53 := by
    rw [shift]
    omega
  calc
    b.mantissa <<< b.shift = b.mantissa * 2 ^ b.shift := Nat.shiftLeft_eq ..
    _ < 2 ^ (b.mantissa.log2 + 1) * 2 ^ b.shift :=
      Nat.mul_lt_mul_of_pos_right Nat.lt_log2_self (Nat.two_pow_pos _)
    _ = 2 ^ (b.mantissa.log2 + 1 + b.shift) := (Nat.pow_add ..).symm
    _ ≤ 2 ^ 53 := Nat.pow_le_pow_right (by decide) hle

/-- A mantissa that stays below the hidden bit is moved up to the least
exponent. -/
theorem exponent_sub_shift_of_lt (hm : b.mantissa < 2 * hiddenBit) (h0 : b.mantissa ≠ 0)
    (hge : minExponent ≤ b.exponent) (hlt : b.mantissa <<< b.shift < hiddenBit) :
    b.exponent - b.shift = minExponent := by
  have hlog := log2_le hm
  have hne : b.shift ≠ 52 - b.mantissa.log2 := by
    intro hshift
    have hself := Nat.mul_le_mul_right (2 ^ b.shift) (Nat.log2_self_le h0)
    rw [← Nat.pow_add, hshift, Nat.add_sub_cancel' hlog, ← hshift, ← Nat.shiftLeft_eq] at hself
    exact absurd hself (Nat.not_le_of_lt hlt)
  rw [shift] at *
  omega

theorem canonical_settled (hm : b.mantissa < 2 * hiddenBit) (hge : minExponent ≤ b.exponent)
    (hle : b.exponent ≤ 971) : b.settled.Canonical := by
  rw [settled]
  split
  · exact ⟨Nat.two_pow_pos 53, Int.le_refl _, (by decide : minExponent ≤ 971), Or.inr rfl⟩
  · rename_i h0
    refine ⟨shifted_lt hm, ?_, by dsimp only; omega, ?_⟩
    · have : b.shift ≤ (b.exponent - minExponent).toNat := Nat.min_le_right ..
      dsimp only
      omega
    · rcases Nat.lt_or_ge (b.mantissa <<< b.shift) hiddenBit with hlt | hge'
      · exact Or.inr (exponent_sub_shift_of_lt hm h0 hge hlt)
      · exact Or.inl hge'

/-- What is written is in canonical form when it is read. -/
theorem ofFloat?_toFloat (hm : b.mantissa < 2 * hiddenBit) (hge : minExponent ≤ b.exponent)
    (hle : b.exponent ≤ 971) : ofFloat? b.toFloat = some b.settled := by
  have hshifted := shifted_lt hm
  rw [toFloat_eq_ofBits_join, settled]
  by_cases h0 : b.mantissa = 0
  · have hzero : b.mantissa <<< b.shift = 0 := by rw [h0, Nat.zero_shiftLeft]
    rw [hzero, if_pos (by decide), if_pos h0, ofFloat?_ofBits_join (by decide) (by decide),
      if_pos rfl]
  rw [if_neg h0]
  split
  · rename_i hlt
    rw [ofFloat?_ofBits_join (by decide) hlt, if_pos rfl, exponent_sub_shift_of_lt hm h0 hge hlt]
  · rename_i hnlt
    have : b.shift ≤ (b.exponent - minExponent).toNat := Nat.min_le_right ..
    have hmin : minExponent = -1074 := rfl
    rw [ofFloat?_ofBits_join (by omega) (by omega), if_neg (by omega),
      Nat.sub_add_cancel (by omega)]
    congr 2
    omega

end

/-! ## Numbers that are packed -/

theorem toNat_packComponents (sign : Sign) (biased : BitVec 11) (stored : BitVec 52) :
    (packComponents Format.binary64 sign biased stored).toNat =
      join (sign == .negative) biased.toNat stored.toNat := by
  rw [packComponents, join]
  change (sign.toBitVec ++ biased ++ stored).toNat = _
  rw [BitVec.toNat_append, ← Nat.shiftLeft_add_eq_or_of_lt stored.isLt, BitVec.toNat_append,
    ← Nat.shiftLeft_add_eq_or_of_lt biased.isLt, Nat.shiftLeft_eq, Nat.shiftLeft_eq]
  cases sign with
  | negative =>
      show (1 * 2 ^ 11 + biased.toNat) * 2 ^ 52 + stored.toNat =
        2 ^ 63 + (biased.toNat * 2 ^ 52 + stored.toNat)
      omega
  | positive =>
      show (0 * 2 ^ 11 + biased.toNat) * 2 ^ 52 + stored.toNat =
        0 + (biased.toNat * 2 ^ 52 + stored.toNat)
      omega

theorem ofFloat?_pack_finite {sign : Sign} {mantissa : Nat} {exponent : Int} (hpos : 0 < mantissa)
    (h : Canonical ⟨sign == .negative, mantissa, exponent⟩) :
    ofFloat? (.ofModel (pack (.finite sign mantissa exponent hpos))) =
      some ⟨sign == .negative, mantissa, exponent⟩ := by
  obtain ⟨hlt, hge, hle, hnormal⟩ := h
  dsimp only [hiddenBit_eq, minExponent] at *
  have hlog : mantissa.log2 + 1 = 53 ↔ 2 ^ 52 ≤ mantissa := by
    have hiff := Nat.le_log2 (n := mantissa) (k := 52) (by omega)
    have := log2_le hlt
    omega
  have hbiased : (exponent + (Format.binary64.exponentBias : Int) + (52 : Nat)).toNat =
      (exponent + 1075).toNat := by
    rw [show (Format.binary64.exponentBias : Int) = 1023 from rfl]
    omega
  rw [ofFloat?_eq_ofWord?]
  change ofWord? (UnpackedFloat.pack Format.binary64
    (.finite sign mantissa exponent hpos)).toNat = _
  rw [UnpackedFloat.pack]
  dsimp only
  rw [hbiased, if_neg (show ¬2 ^ 11 ≤ (exponent + 1075).toNat + 1 by omega)]
  split
  · rename_i hm
    replace hm : 2 ^ 52 ≤ mantissa := hlog.mp hm
    have hstored : mantissa - 2 ^ 52 < hiddenBit := by rw [hiddenBit_eq]; omega
    rw [toNat_packComponents, BitVec.toNat_ofNat, BitVec.toNat_ofNat, Nat.mod_eq_sub_mod hm,
      Nat.mod_eq_of_lt (b := 2 ^ 52) hstored, Nat.mod_eq_of_lt (b := 2 ^ 11) (by omega),
      ofWord?_join (by omega) hstored, if_neg (by omega), hiddenBit_eq, Nat.sub_add_cancel hm]
    congr 2
    omega
  · rename_i hm
    replace hm : mantissa < 2 ^ 52 := Nat.lt_of_not_le (mt hlog.mpr hm)
    rw [toNat_packComponents, BitVec.toNat_ofNat, BitVec.toNat_ofNat, Nat.zero_mod,
      Nat.mod_eq_of_lt hm, ofWord?_join (by decide) hm, if_pos rfl]
    obtain rfl := hnormal.resolve_left (Nat.not_le_of_lt hm)
    rfl

/-- A number in canonical form keeps it when it is packed. -/
theorem ofFloat?_pack {u : UnpackedFloat} {b : Binary64} (hu : ofUnpacked? u = some b)
    (hb : b.Canonical) : ofFloat? (.ofModel (pack u)) = some b := by
  cases u with
  | infinity sign => cases hu
  | notANumber => cases hu
  | zero sign =>
      rw [ofFloat?_eq_ofUnpacked?, ← hu]
      exact congrArg _ unpack_packedZero
  | finite sign mantissa exponent hpos =>
      cases hu
      exact ofFloat?_pack_finite hpos hb

end Pixelwise.Binary64
