/-!
# Sorted tables

A table of keys and values in increasing order of keys.  Inserting under a key
that is present replaces its value.
-/

namespace BitAssembly

abbrev SortedTable (κ ν : Type) := List (κ × ν)

namespace SortedTable

variable {κ ν : Type} [DecidableEq κ]

def insert [LT κ] [DecidableLT κ] (table : SortedTable κ ν) (key : κ) (value : ν) :
    SortedTable κ ν :=
  match table with
  | [] => [(key, value)]
  | entry :: rest =>
      if key < entry.1 then (key, value) :: entry :: rest
      else if key = entry.1 then (key, value) :: rest
      else entry :: insert rest key value

def find? (table : SortedTable κ ν) (key : κ) : Option ν :=
  (table : List (κ × ν)).lookup key

@[simp]
theorem find?_nil (key : κ) : find? ([] : SortedTable κ ν) key = none := rfl

theorem find?_cons (entry : κ × ν) (rest : SortedTable κ ν) (key : κ) :
    find? (entry :: rest) key = if key = entry.1 then some entry.2 else find? rest key := by
  rw [find?, List.lookup_cons]
  by_cases h : key = entry.1
  · simp [h]
  · rw [if_neg h, show (key == entry.1) = false by simpa using h]
    rfl

theorem find?_insert [LT κ] [DecidableLT κ] (table : SortedTable κ ν) (key : κ) (value : ν)
    (sought : κ) :
    find? (insert table key value) sought =
      if sought = key then some value else find? table sought := by
  induction table with
  | nil => simp [insert, find?_cons]
  | cons entry rest ih =>
      rw [insert]
      split
      · simp only [find?_cons]
      · split
        · next h => simp only [find?_cons, h]; split <;> rfl
        · next h =>
            simp only [find?_cons, ih]
            by_cases hsought : sought = entry.1
            · subst hsought
              simp [Ne.symm h]
            · simp [hsought]

end SortedTable

end BitAssembly
