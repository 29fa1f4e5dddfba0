import BitAssembly.Text.Window

/-!
# A position in a text

A cursor reads a text a few characters at a time.  Counts may be negative: such
a read moves the position back, and positions before the start count from the
end of the text.
-/

namespace BitAssembly.Bits

open BitAssembly.Text

structure Cursor where
  text : Array Char
  pos : Int
deriving DecidableEq, Repr

/-- A cursor at the start of a text without its spaces and line feeds. -/
def Cursor.ofText (text : List Char) : Cursor :=
  ⟨(text.filter fun c => c != ' ' && c != '\n').toArray, 0⟩

def Cursor.ofChars (text : Array Char) : Cursor :=
  ⟨text, 0⟩

def Cursor.atEnd (cursor : Cursor) : Bool :=
  (cursor.text.size : Int) ≤ cursor.pos

def Cursor.peek? (cursor : Cursor) (count : Int) : Option (List Char) :=
  if cursor.pos + count > cursor.text.size then none
  else some (window cursor.text cursor.pos (cursor.pos + count))

def Cursor.advance (cursor : Cursor) (count : Int) : Cursor :=
  { cursor with pos := cursor.pos + count }

def Cursor.rest (cursor : Cursor) : List Char :=
  cursor.text.toList.drop cursor.pos.toNat

theorem Cursor.peek?_eq (cursor : Cursor) (pos count : Nat) (h : cursor.pos = pos) :
    cursor.peek? count =
      if pos + count ≤ cursor.text.size then some (cursor.rest.take count) else none := by
  rw [peek?, h, rest, h]
  by_cases hfits : pos + count ≤ cursor.text.size
  · rw [if_neg (by omega), if_pos hfits, Int.toNat_natCast,
      ← window_eq_of_nonneg cursor.text pos count hfits, Int.natCast_add]
  · rw [if_pos (by omega), if_neg hfits]

theorem Cursor.rest_advance (cursor : Cursor) (pos count : Nat) (h : cursor.pos = pos) :
    (cursor.advance count).rest = cursor.rest.drop count := by
  have hsum : (cursor.advance count).pos.toNat = pos + count := by
    simp only [advance, h]
    omega
  rw [rest, hsum, rest, h, List.drop_drop]
  rfl

theorem Cursor.atEnd_iff (cursor : Cursor) (h : 0 ≤ cursor.pos) :
    cursor.atEnd ↔ cursor.rest = [] := by
  simp only [atEnd, rest, decide_eq_true_eq, List.drop_eq_nil_iff, Array.length_toList]
  omega

end BitAssembly.Bits
