/-
The order of names.

Names are compared by the bytes of their UTF-8 text.  That is the order of
their code points (`bytes_lt_iff`): a character with a greater code point has
greater bytes, whatever stands behind it, because the digits of the code point
to base 64 are spread over the bytes with the greatest first.

A table that names were only inserted into has them in strict order
(`Ordered.insert`), and then it holds what its entries say (`get?_eq_some_iff`).
-/
import Pixelwise.NameTable

namespace Pixelwise

/-! ## The order of bytes -/

/-- The bytes of a text. -/
def bytes (text : String) : List UInt8 :=
  text.toUTF8.data.toList

theorem bytes_eq (text : String) : bytes text = text.toList.flatMap String.utf8EncodeChar := by
  have hencode : text.toUTF8 = text.toList.utf8Encode := by simp
  rw [bytes, hencode, List.utf8Encode]
  simp

/-- Numbers are compared by their digits to base 64, the greatest first. -/
theorem digits_lt {m n : Nat} (h : m < n) :
    m / 64 / 64 / 64 < n / 64 / 64 / 64 ∨
      m / 64 / 64 / 64 = n / 64 / 64 / 64 ∧
        (m / 64 / 64 % 64 < n / 64 / 64 % 64 ∨
          m / 64 / 64 % 64 = n / 64 / 64 % 64 ∧
            (m / 64 % 64 < n / 64 % 64 ∨ m / 64 % 64 = n / 64 % 64 ∧ m % 64 < n % 64)) := by
  have hdigit : ∀ {k l : Nat}, k < l → k / 64 < l / 64 ∨ k / 64 = l / 64 ∧ k % 64 < l % 64 := by
    omega
  rcases hdigit h with h₁ | ⟨h₁, hlast⟩
  · rcases hdigit h₁ with h₂ | ⟨h₂, hthird⟩
    · rcases hdigit h₂ with h₃ | ⟨h₃, hsecond⟩
      · exact Or.inl h₃
      · exact Or.inr ⟨h₃, Or.inl hsecond⟩
    · rw [h₂]
      exact Or.inr ⟨rfl, Or.inr ⟨rfl, Or.inl hthird⟩⟩
  · rw [h₁]
    exact Or.inr ⟨rfl, Or.inr ⟨rfl, Or.inr ⟨rfl, hlast⟩⟩⟩

/-- A greater character has greater bytes, whatever stands behind it. -/
theorem encode_lt {c d : Char} (h : c < d) (xs ys : List UInt8) :
    String.utf8EncodeChar c ++ xs < String.utf8EncodeChar d ++ ys := by
  have hmax : d.val.toNat < 0x110000 := by
    rcases d.valid with hd | hd
    · exact Nat.lt_trans hd (by decide)
    · exact hd.2
  have hlt : c.val.toNat < d.val.toNat := h
  unfold String.utf8EncodeChar
  generalize c.val.toNat = m at hlt ⊢
  generalize d.val.toNat = n at hlt hmax ⊢
  have hsecond : ∀ k : Nat, k / 4096 = k / 64 / 64 := by omega
  have hfirst : ∀ k : Nat, k / 262144 = k / 64 / 64 / 64 := by omega
  have hdigits := digits_lt hlt
  dsimp only
  rw [hfirst, hfirst, hsecond, hsecond]
  -- By the numbers of bytes of the two.
  repeat' split
  all_goals
    simp (disch := omega) only [List.cons_append, List.nil_append, List.cons_lt_cons_iff,
      UInt8.lt_iff_toNat_lt, ← UInt8.toNat_inj, UInt8.toNat_ofNat', Nat.mod_eq_of_lt]
    omega

theorem flatMap_encode_lt {xs ys : List Char} (h : xs < ys) :
    xs.flatMap String.utf8EncodeChar < ys.flatMap String.utf8EncodeChar := by
  induction xs generalizing ys with
  | nil =>
      cases ys with
      | nil => exact absurd h (List.lt_irrefl _)
      | cons d ds =>
          obtain ⟨x, xs, hx⟩ := List.exists_cons_of_ne_nil (String.utf8EncodeChar_ne_nil (c := d))
          simp [List.flatMap_cons, hx]
  | cons c cs ih =>
      cases ys with
      | nil => exact absurd h (List.not_lt_nil _)
      | cons d ds =>
          rw [List.flatMap_cons, List.flatMap_cons]
          rcases List.cons_lt_cons_iff.mp h with hlt | ⟨rfl, hrest⟩
          · exact encode_lt hlt _ _
          · exact List.append_left_lt (ih hrest)

/-- Names are in the order of their bytes if they are in that of their code
points. -/
theorem bytes_lt_iff {a b : String} : bytes a < bytes b ↔ a < b := by
  have hmono : ∀ {s t : String}, s < t → bytes s < bytes t := fun h => by
    rw [bytes_eq, bytes_eq]
    exact flatMap_encode_lt h
  refine ⟨fun h => ?_, hmono⟩
  by_cases hlt : a < b
  · exact hlt
  by_cases hgt : b < a
  · exact absurd (hmono hgt) (List.lt_asymm h)
  · have heq : a = b := String.le_antisymm (String.not_lt.mp hgt) (String.not_lt.mp hlt)
    exact absurd h (heq ▸ List.lt_irrefl _)

/-! ## Tables in order -/

namespace NameTable

variable {α : Type} {t : NameTable α}

/-- The names stand in strict order. -/
def Ordered (t : NameTable α) : Prop :=
  t.entries.Pairwise fun a b => a.1 < b.1

theorem mem_names_iff {t : NameTable α} {name : String} :
    name ∈ t.names ↔ (t.get? name).isSome := by
  rw [names, get?]
  induction t.entries with
  | nil => simp [findEntry]
  | cons e rest ih =>
      obtain ⟨n, v⟩ := e
      rw [List.map_cons, List.mem_cons, findEntry, ih]
      by_cases h : n = name
      · simp [h]
      · simp [h, Ne.symm h]

theorem mem_of_findEntry {name : String} {value : α}
    {entries : List (String × α)} (h : findEntry name entries = some value) :
    (name, value) ∈ entries := by
  induction entries with
  | nil => cases h
  | cons e rest ih =>
      rw [findEntry] at h
      split at h
      · rename_i hname
        rw [← Option.some.inj h, ← hname]
        exact List.mem_cons_self
      · exact List.mem_cons_of_mem _ (ih h)

theorem mem_insertEntry {name : String} {value : α} {entries : List (String × α)}
    {e : String × α} (h : e ∈ insertEntry name value entries) :
    e = (name, value) ∨ e ∈ entries := by
  induction entries with
  | nil => exact Or.inl (List.mem_singleton.mp h)
  | cons d rest ih =>
      rw [insertEntry] at h
      split at h
      · exact List.mem_cons.mp h
      · split at h
        · exact (List.mem_cons.mp h).imp_right (List.mem_cons_of_mem d)
        · rcases List.mem_cons.mp h with rfl | h
          · exact Or.inr List.mem_cons_self
          · exact (ih h).imp_right (List.mem_cons_of_mem d)

/-- A new name adds one entry. -/
theorem insertEntry_perm {name : String} {value : α} {entries : List (String × α)}
    (h : name ∉ entries.map Prod.fst) :
    (insertEntry name value entries).Perm ((name, value) :: entries) := by
  induction entries with
  | nil => exact List.Perm.refl _
  | cons d rest ih =>
      rw [List.map_cons, List.mem_cons, not_or] at h
      rw [insertEntry]
      split
      · exact List.Perm.refl _
      · rw [if_neg h.1]
        exact ((ih h.2).cons d).trans (List.Perm.swap ..)

theorem ordered_empty : (empty : NameTable α).Ordered :=
  List.Pairwise.nil

/-- What is inserted comes into its place. -/
theorem Ordered.insert (h : t.Ordered) (name : String) (value : α) :
    (t.insert name value).Ordered := by
  rw [Ordered] at h ⊢
  rw [NameTable.insert]
  generalize t.entries = entries at h ⊢
  induction entries with
  | nil => exact List.pairwise_singleton ..
  | cons d rest ih =>
      obtain ⟨hd, hrest⟩ := List.pairwise_cons.mp h
      dsimp only
      rw [insertEntry]
      split
      · rename_i hlt
        refine List.pairwise_cons.mpr ⟨fun e he => ?_, h⟩
        rcases List.mem_cons.mp he with rfl | he
        · exact hlt
        · exact String.lt_trans hlt (hd e he)
      · rename_i hle
        split
        · rename_i heq
          exact List.pairwise_cons.mpr ⟨fun e he => heq ▸ hd e he, hrest⟩
        · rename_i hne
          refine List.pairwise_cons.mpr ⟨fun e he => ?_, ih hrest⟩
          rcases mem_insertEntry he with rfl | he
          · by_cases hlt : d.1 < name
            · exact hlt
            · exact absurd (String.le_antisymm (String.not_lt.mp hlt) (String.not_lt.mp hle)) hne
          · exact hd e he

/-- A table in order holds each name once. -/
theorem Ordered.get?_eq_some_iff (h : t.Ordered) {name : String} {value : α} :
    t.get? name = some value ↔ (name, value) ∈ t.entries := by
  refine ⟨mem_of_findEntry, fun hmem => ?_⟩
  rw [Ordered] at h
  rw [get?]
  generalize t.entries = entries at h hmem ⊢
  induction entries with
  | nil => cases hmem
  | cons e rest ih =>
      obtain ⟨he, hrest⟩ := List.pairwise_cons.mp h
      rw [findEntry]
      rcases List.mem_cons.mp hmem with rfl | hmem
      · exact if_pos rfl
      · have hlt : e.1 < name := he _ hmem
        have hne : e.1 ≠ name := fun heq => String.lt_irrefl name (heq ▸ hlt)
        rw [if_neg hne]
        exact ih hrest hmem

end NameTable

end Pixelwise
