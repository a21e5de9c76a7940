/-
Tables from names to values, in the order of the names.

A name is inserted in its place in one pass, so the laws of looking up hold
of every table.  Names are ordered by their code points, which is also the
order of their bytes.
-/

namespace Pixelwise

/-- Names with their values. -/
structure NameTable (α : Type) where
  entries : List (String × α)
deriving DecidableEq, Repr

namespace NameTable

variable {α : Type}

/-- The table without names. -/
def empty : NameTable α := ⟨[]⟩

/-- Insert a name before all greater ones, or replace its value. -/
def insertEntry (name : String) (value : α) : List (String × α) → List (String × α)
  | [] => [(name, value)]
  | (n, v) :: rest =>
    if name < n then (name, value) :: (n, v) :: rest
    else if name = n then (name, value) :: rest
    else (n, v) :: insertEntry name value rest

/-- Give a name a value. -/
def insert (t : NameTable α) (name : String) (value : α) : NameTable α :=
  ⟨insertEntry name value t.entries⟩

/-- The value of a name in a list of entries, the first if there are more. -/
def findEntry (name : String) : List (String × α) → Option α
  | [] => none
  | (n, v) :: rest => if n = name then some v else findEntry name rest

/-- The value of a name. -/
def get? (t : NameTable α) (name : String) : Option α :=
  findEntry name t.entries

/-- The names, in order. -/
def names (t : NameTable α) : List String :=
  t.entries.map Prod.fst

@[simp] theorem get?_empty (name : String) : (empty : NameTable α).get? name = none := rfl

theorem findEntry_insertEntry (name other : String) (value : α) (entries : List (String × α)) :
    findEntry other (insertEntry name value entries) =
      if name = other then some value else findEntry other entries := by
  induction entries with
  | nil => rfl
  | cons e rest ih =>
    obtain ⟨n, v⟩ := e
    unfold insertEntry
    split
    · rfl
    · split
      · rename_i hn
        subst hn
        by_cases ho : name = other <;> simp [findEntry, ho]
      · rename_i hn
        by_cases ho : n = other
        · have : name ≠ other := fun e => hn (e.trans ho.symm)
          simp [findEntry, ho, this]
        · simp [findEntry, ho, ih]

@[simp] theorem get?_insert (t : NameTable α) (name other : String) (value : α) :
    (t.insert name value).get? other = if name = other then some value else t.get? other :=
  findEntry_insertEntry name other value t.entries

end NameTable

end Pixelwise
