/-!
# Maps keyed by names

A map from names is a list of pairs in ascending order of the names, each name standing once. Names
are ordered by code point.
-/

namespace QueryChain

/-- Pairs of a name and a value, ascending in the names. -/
abbrev NameMap (α : Type) := List (String × α)

namespace NameMap

variable {α : Type}

/-- The value under `name`. -/
def get? (map : NameMap α) (name : String) : Option α :=
  match map with
  | [] => none
  | (key, value) :: rest => if key = name then some value else get? rest name

/-- Whether `name` has a value. -/
def contains (map : NameMap α) (name : String) : Bool :=
  (map.get? name).isSome

/-- Puts `value` under `name`, in the place of what stood there before. -/
def insert (map : NameMap α) (name : String) (value : α) : NameMap α :=
  match map with
  | [] => [(name, value)]
  | (key, old) :: rest =>
    if key = name then (name, value) :: rest
    else if name < key then (name, value) :: (key, old) :: rest
    else (key, old) :: insert rest name value

/-- The map of a list of pairs, where the last pair of a name wins. -/
def ofList (pairs : List (String × α)) : NameMap α :=
  pairs.foldl (fun map pair => map.insert pair.1 pair.2) []

/-- The names of a map ascend, so no name stands twice. -/
def Ascending (map : NameMap α) : Prop :=
  map.Pairwise (fun a b => a.1 < b.1)

theorem get?_insert_self (map : NameMap α) (name : String) (value : α) :
    (map.insert name value).get? name = some value := by
  induction map with
  | nil => simp [insert, get?]
  | cons pair rest ih =>
    obtain ⟨key, old⟩ := pair
    simp only [insert]
    split
    · simp [get?]
    · split
      · simp [get?]
      · rename_i hkey _
        simp [get?, hkey, ih]

theorem get?_insert_of_ne (map : NameMap α) {name other : String} (value : α) (h : name ≠ other) :
    (map.insert name value).get? other = map.get? other := by
  induction map with
  | nil => simp [insert, get?, h]
  | cons pair rest ih =>
    obtain ⟨key, old⟩ := pair
    simp only [insert]
    split
    · rename_i hkey
      subst hkey
      simp [get?, h]
    · split
      · simp [get?, h]
      · simp [get?, ih]

end NameMap

end QueryChain
