/-
Scaling — a decimal without a sign is read as a number without one.

Rounding, packing, and multiplying and dividing by powers of ten keep a number
unsigned: it is no negative number, no negative zero, and it is a number.
That holds of infinity too, which is what large decimals are read as.

Main statement: `unsigned_of_read?`.
-/
import Mathlib
import Pixelwise.Decimal.Grammar
import Pixelwise.Proofs.Packing
import Pixelwise.Proofs.Valuing

namespace Pixelwise

namespace Binary64

open Float.Model Float.Model.UnpackedFloat

/-- It is a number, and has the positive sign. -/
def Unsigned : UnpackedFloat → Prop
  | .notANumber => False
  | .infinity sign | .zero sign | .finite sign _ _ _ => sign = .positive

/-! ## Rounding and scaling -/

theorem unsigned_roundWithAccuracy (m : Nat) (e : Int) (accuracy : Accuracy) :
    Unsigned (roundWithAccuracy Format.binary64 .positive m e accuracy) := by
  rw [roundWithAccuracy]
  dsimp only
  split <;> rfl

theorem unsigned_mul {u : UnpackedFloat} (hu : Unsigned u) {m : Nat} (hm : 0 < m) (e : Int) :
    Unsigned (UnpackedFloat.mul Format.binary64 u (.finite .positive m e hm)) := by
  cases u with
  | notANumber => cases hu
  | infinity sign =>
      cases hu
      rfl
  | zero sign =>
      cases hu
      rfl
  | finite sign n f hn =>
      cases hu
      exact unsigned_roundWithAccuracy ..

theorem unsigned_div {u : UnpackedFloat} (hu : Unsigned u) {m : Nat} (hm : 0 < m) (e : Int) :
    Unsigned (UnpackedFloat.div Format.binary64 u (.finite .positive m e hm)) := by
  cases u with
  | notANumber => cases hu
  | infinity sign =>
      cases hu
      rfl
  | zero sign =>
      cases hu
      rfl
  | finite sign n f hn =>
      cases hu
      exact unsigned_roundWithAccuracy ..

theorem unsigned_ofScientific (m : Nat) (e : Int) :
    Unsigned (UnpackedFloat.ofScientific Format.binary64 m e) := by
  have hfinite : ∀ {n : Nat} {f : Int} (hn : 0 < n), Unsigned (.finite .positive n f hn) :=
    fun _ => rfl
  rw [UnpackedFloat.ofScientific]
  split
  · rfl
  · split
    · rfl
    · split
      · rfl
      · split
        · exact unsigned_mul (hfinite _) _ _
        · exact unsigned_div (hfinite _) _ _

theorem unsigned_ofNat (n : Nat) : Unsigned (UnpackedFloat.ofNat Format.binary64 n) := by
  rw [UnpackedFloat.ofNat, UnpackedFloat.ofInt, UnpackedFloat.normalize]
  split
  · rename_i hlt
    rw [Int.compare_eq_lt] at hlt
    omega
  · rfl
  · exact unsigned_roundWithAccuracy ..

/-! ## Packing -/

/-- The bits up to those of infinity are of numbers without a sign. -/
theorem unsigned_unpack {bits : BitVec 64} (h : bits.toNat ≤ 2047 * hiddenBit) :
    Unsigned (UnpackedFloat.unpack Format.binary64 bits) := by
  have hexponent := toNat_unpackExponent bits
  have hmantissa := toNat_unpackMantissa bits
  have hsign : Sign.ofBitVec (@unpackSign Format.binary64 bits) = .positive := by
    have hnegative := negative_unpackSign bits
    rw [decide_eq_false (by rw [hiddenBit_eq] at h; rw [signBit_eq]; omega)] at hnegative
    cases hs : Sign.ofBitVec (@unpackSign Format.binary64 bits) with
    | negative =>
        rw [hs] at hnegative
        cases hnegative
    | positive => rfl
  rw [UnpackedFloat.unpack]
  dsimp only
  rw [hsign]
  split
  · rename_i hones
    have hzero : @unpackMantissa Format.binary64 bits = 0#_ := by
      rw [hones] at hexponent
      replace hexponent : 2047 = bits.toNat / hiddenBit % 2048 := hexponent
      rw [← BitVec.toNat_inj, hmantissa]
      change bits.toNat % hiddenBit = 0
      rw [hiddenBit_eq] at *
      omega
    rw [if_pos hzero]
    rfl
  · split
    · split <;> rfl
    · rfl

theorem toNat_pack_le {u : UnpackedFloat} (hu : Unsigned u) :
    (UnpackedFloat.pack Format.binary64 u).toNat ≤ 2047 * hiddenBit := by
  cases u with
  | notANumber => cases hu
  | infinity sign =>
      cases hu
      exact Nat.le_of_eq (toNat_packComponents ..)
  | zero sign =>
      cases hu
      exact (toNat_packComponents ..).trans_le (Nat.zero_le _)
  | finite sign m e hm =>
      cases hu
      rw [UnpackedFloat.pack]
      dsimp only
      split
      · exact Nat.le_of_eq (toNat_packComponents ..)
      · rename_i hlt
        -- An exponent that is stored whole is below that of infinity.
        generalize (e + Format.binary64.exponentBias + (52 : Nat)).toNat = biased at hlt
        have hbiased : biased % 2 ^ 11 < 2047 := by omega
        have hstored : m % 2 ^ 52 < hiddenBit := Nat.mod_lt _ (by decide)
        split
        · rw [toNat_packComponents, BitVec.toNat_ofNat, BitVec.toNat_ofNat]
          exact join_false_le hbiased hstored
        · rw [toNat_packComponents, BitVec.toNat_ofNat, BitVec.toNat_ofNat]
          exact join_false_le (by decide) hstored

theorem unsigned_pack {u : UnpackedFloat} (hu : Unsigned u) : Unsigned (pack u).unpack :=
  unsigned_unpack (toNat_pack_le hu)

/-! ## Powers of ten -/

theorem exists_of_mem_powersOfTen {x : Float} (hx : x ∈ Float.exactlyRepresentablePowersOfTen) :
    ∃ m e hm, x.toModel.unpack = .finite .positive m e hm := by
  have hall : (Float.exactlyRepresentablePowersOfTen.all fun x =>
      (ofFloat? x).any fun b => !b.negative && decide (0 < b.mantissa)) = true := by
    decide +kernel
  obtain ⟨⟨negative, m, e⟩, hb, hpositive⟩ :=
    (Option.any_eq_true _ _).mp (Array.all_eq_true_iff_forall_mem.mp hall x hx)
  obtain ⟨hsign, hm⟩ := Bool.and_eq_true_iff.mp hpositive
  replace hm : 0 < m := of_decide_eq_true hm
  cases negative with
  | true => cases hsign
  | false =>
      rw [ofFloat?_eq_ofUnpacked?] at hb
      exact ⟨m, e, hm, ofUnpacked?_inj hb rfl⟩

section
variable {x y : Float} (hx : Unsigned x.toModel.unpack)
  (hy : y ∈ Float.exactlyRepresentablePowersOfTen)
include hx hy

theorem unsigned_mul_power : Unsigned (x * y).toModel.unpack := by
  obtain ⟨m, e, hm, hunpack⟩ := exists_of_mem_powersOfTen hy
  have hmul := unsigned_mul hx hm e
  rw [← hunpack] at hmul
  exact unsigned_pack hmul

theorem unsigned_div_power : Unsigned (x / y).toModel.unpack := by
  obtain ⟨m, e, hm, hunpack⟩ := exists_of_mem_powersOfTen hy
  have hdiv := unsigned_div hx hm e
  rw [← hunpack] at hdiv
  exact unsigned_pack hdiv

end

/-- Small decimals are a product or a quotient of numbers, and the others are
rounded once; neither has a sign. -/
theorem unsigned_scientific (m : Nat) (negative : Bool) (e : Nat) :
    Unsigned (Float.ofScientific m negative e).toModel.unpack := by
  have hwhole : Unsigned m.toUInt64.toFloat.toModel.unpack := unsigned_pack (unsigned_ofNat _)
  rw [Float.ofScientific]
  split
  · dsimp only
    split
    · exact unsigned_div_power hwhole (Array.getElem_mem _)
    · exact unsigned_mul_power hwhole (Array.getElem_mem _)
  · exact unsigned_pack (unsigned_ofScientific ..)

end Binary64

namespace Decimal

open Binary64

theorem unsigned_scale (ds : List Char) (e : Int) : Unsigned (scale ds e).toModel.unpack := by
  rw [scale]
  split <;> exact unsigned_scientific ..

theorem unsigned_of_readPlain? {w : List Char} {x : Float} (h : readPlain? w = some x) :
    Unsigned x.toModel.unpack := by
  rw [readPlain?] at h
  split at h
  · cases h
  · obtain ⟨e, -, rfl⟩ := Option.map_eq_some_iff.mp h
    exact unsigned_scale ..

theorem toLower_of_opens {c : Char} (h : c.isDigit = true ∨ c = '.') : c.toLower = c := by
  have hupper : ¬(c.val ≥ 'A'.val ∧ c.val ≤ 'Z'.val) := by
    rintro ⟨hge, -⟩
    rcases h with h | rfl
    · have hle : c.val ≤ '9'.val := of_decide_eq_true (Bool.and_eq_true_iff.mp h).2
      exact absurd (UInt32.le_trans hge hle) (by decide)
    · exact absurd hge (by decide)
  exact dif_neg hupper

/-- No name is that of a decimal. -/
theorem readUnsigned?_of_mem_plain {w : List Char} (hw : w ∈ plain) :
    readUnsigned? w = readPlain? w := by
  have hname : ∀ d ds, d.isDigit = false → d ≠ '.' →
      String.ofList (w.map Char.toLower) ≠ String.ofList (d :: ds) := by
    intro d ds hdigit hpoint h
    replace h := String.ofList_injective h
    cases w with
    | nil => cases h
    | cons c cs =>
        have hopens := opens_of_mem_plain hw
        rw [List.map_cons, toLower_of_opens hopens] at h
        obtain ⟨rfl, -⟩ := List.cons.inj h
        rcases hopens with hopens | hopens
        · rw [hdigit] at hopens
          cases hopens
        · exact hpoint hopens
  rw [readUnsigned?, if_neg, if_neg (hname 'n' ['a', 'n'] rfl (by decide))]
  rintro (h | h)
  · exact hname 'i' ['n', 'f'] rfl (by decide) h
  · exact hname 'i' ['n', 'f', 'i', 'n', 'i', 't', 'y'] rfl (by decide) h

/-- A decimal is read as a number without a sign. -/
theorem unsigned_of_read? {w : List Char} (hw : w ∈ plain) {x : Float}
    (h : read? (String.ofList w) = some x) : Unsigned x.toModel.unpack := by
  rw [read?, String.toList_ofList] at h
  split at h
  · exact absurd (opens_of_mem_plain hw) (by decide)
  · exact absurd (opens_of_mem_plain hw) (by decide)
  · rw [readUnsigned?_of_mem_plain hw] at h
    exact unsigned_of_readPlain? h

end Decimal

namespace Binary64

open Float.Model Float.Model.UnpackedFloat

/-- Numbers without a sign are the same when they are equal as numbers. -/
theorem beq_iff_eq_of_unsigned {x y : Float} (hx : Unsigned x.toModel.unpack)
    (hy : Unsigned y.toModel.unpack) : (x == y) = true ↔ x = y := by
  have hnan : ∀ {u : UnpackedFloat}, Unsigned u → u ≠ .notANumber := by
    rintro _ hu rfl
    cases hu
  have hneg : ∀ {u : UnpackedFloat}, Unsigned u → u ≠ .zero .negative := by
    rintro _ hu rfl
    cases hu
  have hbeq : (x == y) = true ↔ x.toModel.unpack.beq y.toModel.unpack := Iff.rfl
  rw [hbeq, beq_iff_ne_notANumber_and_eq]
  constructor
  · rintro ⟨-, -, h | ⟨-, h⟩ | ⟨h, -⟩⟩
    · exact eq_of_unpack_eq h
    · exact absurd h (hneg hy)
    · exact absurd h (hneg hx)
  · rintro rfl
    exact ⟨hnan hx, hnan hx, Or.inl rfl⟩

end Binary64

end Pixelwise
