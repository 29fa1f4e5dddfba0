/-!
# Windows of a text

Bounds and indices may be negative, and then count from the end.  Bounds of a
window are clamped to the text; an index outside it names nothing.
-/

namespace BitAssembly.Text

def clampBound (size : Nat) (bound : Int) : Nat :=
  min size (if bound < 0 then bound + size else bound).toNat

def window (text : Array Char) (start stop : Int) : List Char :=
  (text.extract (clampBound text.size start) (clampBound text.size stop)).toList

def index? (size : Nat) (i : Int) : Option (Fin size) :=
  let offset := if i < 0 then i + size else i
  if h : 0 ≤ offset ∧ offset.toNat < size then some ⟨offset.toNat, h.2⟩ else none

theorem window_eq_of_nonneg (text : Array Char) (start count : Nat)
    (h : start + count ≤ text.size) :
    window text start (start + count : Nat) = (text.toList.drop start).take count := by
  have hstart : clampBound text.size start = start := by
    simp [clampBound]; omega
  have hstop : clampBound text.size (start + count : Nat) = start + count := by
    simp [clampBound]; omega
  rw [window, hstart, hstop]
  simp [List.extract_eq_take_drop]

theorem index?_natCast {size i : Nat} (h : i < size) : index? size (i : Int) = some ⟨i, h⟩ := by
  have hoffset : (if (i : Int) < 0 then (i : Int) + size else i) = i := by omega
  simp [index?, hoffset, h]

end BitAssembly.Text
