/-
Search — finding an entry by its name, where the entries stand in the order
of their names.

The search halves the range of entries that are left until one remains, and
compares names for equality only there.

Main statement: `find?_eq_some_iff`, that among entries in strict order of
their names the search finds every entry, and nothing else.
-/

namespace Pixelwise.Search

variable {α : Type} (key : α → String)

/-- Of `size` entries from offset `base` on, the last whose name is not
greater than `name`, or the first of them. -/
def narrow (entries : Array α) (name : String) (base size : Nat)
    (h : base + size ≤ entries.size) : Nat :=
  if hone : size ≤ 1 then base
  else
    have hmid : base + size / 2 < entries.size := by omega
    if name < key entries[base + size / 2] then
      narrow entries name base (size - size / 2) (by omega)
    else narrow entries name (base + size / 2) (size - size / 2) (by omega)
termination_by size

/-- The entry of a name. -/
def find? (entries : Array α) (name : String) : Option α :=
  entries[narrow key entries name 0 entries.size (by omega)]?.filter fun e => key e = name

/-- The names of the entries increase. -/
def Ordered (entries : Array α) : Prop :=
  entries.toList.Pairwise fun a b => key a < key b

variable {key} {entries : Array α}

theorem Ordered.lt (h : Ordered key entries) {i j : Nat} (hij : i < j) (hj : j < entries.size) :
    key entries[i] < key entries[j] := by
  have hlist := List.pairwise_iff_getElem.mp h i j (by simp; omega) (by simpa using hj) hij
  simpa using hlist

/-- An entry that stands in the range is where the search ends. -/
theorem narrow_eq (h : Ordered key entries) {name : String} {base size k : Nat}
    {hsize : base + size ≤ entries.size} (hlow : base ≤ k) (hhigh : k < base + size)
    (hk : key (entries[k]) = name) : narrow key entries name base size hsize = k := by
  fun_induction narrow key entries name base size hsize with
  | case1 base size hsize hone => omega
  | case2 base size hsize hone hmid hgreater ih =>
      -- From the middle on all names are greater.
      have hlt : k < base + size / 2 := by
        refine Nat.lt_of_not_le fun hle => String.lt_irrefl name ?_
        rcases Nat.eq_or_lt_of_le hle with rfl | hlt
        · rwa [hk] at hgreater
        · have hbehind := h.lt hlt (by omega)
          rw [hk] at hbehind
          exact String.lt_trans hgreater hbehind
      exact ih hlow (by omega) hk
  | case3 base size hsize hone hmid hgreater ih =>
      refine ih ?_ (by omega) hk
      refine Nat.le_of_not_lt fun hlt => hgreater ?_
      exact hk ▸ h.lt hlt hmid

/-- Among entries in the order of their names all are found. -/
theorem find?_eq_some_iff (h : Ordered key entries) {name : String} {e : α} :
    find? key entries name = some e ↔ e ∈ entries ∧ key e = name := by
  rw [find?, Option.filter_eq_some_iff]
  constructor
  · rintro ⟨hfound, hname⟩
    exact ⟨Array.mem_of_getElem? hfound, of_decide_eq_true hname⟩
  · rintro ⟨hmem, hname⟩
    obtain ⟨k, hk, rfl⟩ := Array.mem_iff_getElem.mp hmem
    rw [narrow_eq h (Nat.zero_le k) (by omega) hname]
    exact ⟨Array.getElem?_eq_getElem hk, decide_eq_true hname⟩

end Pixelwise.Search
