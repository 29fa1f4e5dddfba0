import BitAssembly.Machine.Fetch
import BitAssembly.Proofs.Result
import BitAssembly.Proofs.Text.Binary

/-!
# What a reading action consumes

`Reads action bits value` says that the action takes exactly these bits off any
text that goes on with them, whatever stood before and whatever follows, and
answers with the value.  Such facts compose along a sequence of actions as the
bits are appended.
-/

namespace BitAssembly.Bits

open BitAssembly.Text

theorem Cursor.ofText_of_allBits {bits : List Char} (h : AllBits bits) :
    Cursor.ofText bits = .ofChars bits.toArray := by
  rw [Cursor.ofText, Cursor.ofChars, List.filter_eq_self.mpr]
  intro c hc
  have hbit := h c hc
  rw [isBit, Bool.or_eq_true, beq_iff_eq, beq_iff_eq] at hbit
  rcases hbit with rfl | rfl <;> decide

theorem Cursor.peek?_eq_take {cursor : Cursor} (hnonneg : 0 ≤ cursor.pos)
    (hwithin : cursor.pos ≤ cursor.text.size) (count : Nat) :
    cursor.peek? count =
      if count ≤ cursor.rest.length then some (cursor.rest.take count) else none := by
  have hlength : cursor.rest.length = cursor.text.size - cursor.pos.toNat := by
    rw [rest, List.length_drop, Array.length_toList]
  rw [peek?_eq cursor cursor.pos.toNat count (Int.toNat_of_nonneg hnonneg).symm, hlength]
  have hfits : cursor.pos.toNat + count ≤ cursor.text.size ↔
      count ≤ cursor.text.size - cursor.pos.toNat := by omega
  simp only [hfits]

end BitAssembly.Bits

namespace BitAssembly.Machine

open BitAssembly.Bits
open BitAssembly.Text

variable {α β : Type}

def Reader.rest (reader : Reader) : List Char :=
  reader.cursor.rest

def Reader.forward (reader : Reader) (count : Nat) : Reader :=
  { reader with cursor := reader.cursor.advance count }

/-- The position lies in the text, and reads leave no trace. -/
structure Reader.Placed (reader : Reader) : Prop where
  untraced : reader.traced = false
  nonneg : 0 ≤ reader.cursor.pos
  within : reader.cursor.pos ≤ reader.cursor.text.size

theorem Reader.length_rest {reader : Reader} (h : reader.Placed) :
    (reader.rest.length : Int) = reader.cursor.text.size - reader.cursor.pos := by
  have hnonneg := h.nonneg
  have hwithin := h.within
  simp only [rest, Cursor.rest, List.length_drop, Array.length_toList]
  omega

theorem Reader.rest_forward {reader : Reader} (h : reader.Placed) (count : Nat) :
    (reader.forward count).rest = reader.rest.drop count :=
  Cursor.rest_advance reader.cursor reader.cursor.pos.toNat count
    (Int.toNat_of_nonneg h.nonneg).symm

theorem Reader.rest_forward_append {reader : Reader} {bits rest : List Char} (h : reader.Placed)
    (hrest : reader.rest = bits ++ rest) : (reader.forward bits.length).rest = rest := by
  rw [rest_forward h, hrest, List.drop_left]

theorem Reader.Placed.forward {reader : Reader} {bits rest : List Char} (h : reader.Placed)
    (hrest : reader.rest = bits ++ rest) : (reader.forward bits.length).Placed := by
  have hlength := Reader.length_rest h
  rw [hrest, List.length_append] at hlength
  have hnonneg := h.nonneg
  refine ⟨h.untraced, ?_, ?_⟩
  · simp only [Reader.forward, Cursor.advance]
    omega
  · simp only [Reader.forward, Cursor.advance]
    omega

@[simp] theorem Reader.forward_zero (reader : Reader) : reader.forward 0 = reader := by
  simp [forward, Cursor.advance]

theorem Reader.forward_forward (reader : Reader) (first second : Nat) :
    (reader.forward first).forward second = reader.forward (first + second) := by
  simp [forward, Cursor.advance, Int.add_assoc]

theorem peek?_rest {reader : Reader} {bits rest : List Char} (h : reader.Placed)
    (hrest : reader.rest = bits ++ rest) :
    reader.cursor.peek? bits.length = some bits := by
  have hlength := Reader.length_rest h
  have hnonneg := h.nonneg
  rw [hrest, List.length_append] at hlength
  rw [Cursor.peek?_eq reader.cursor reader.cursor.pos.toNat bits.length (by omega),
    if_pos (by omega)]
  have htake : reader.cursor.rest.take bits.length = bits := by
    rw [← Reader.rest, hrest, List.take_left]
  rw [htake]

def Reads (action : Reading α) (bits : List Char) (value : α) : Prop :=
  ∀ (reader : Reader) (rest : List Char), reader.Placed → reader.rest = bits ++ rest →
    action reader = .ok value (reader.forward bits.length)

namespace Reads

theorem pure (value : α) : Reads (Pure.pure value) [] value := by
  intro reader rest _ _
  simp only [List.length_nil, Reader.forward_zero]
  rfl

theorem bind_apply {first : Reading α} {bits rest : List Char} {a : α}
    (hfirst : Reads first bits a) (second : α → Reading β) {reader : Reader}
    (hplaced : reader.Placed) (hrest : reader.rest = bits ++ rest) :
    (first >>= second) reader = second a (reader.forward bits.length) := by
  change EStateM.bind first second reader = _
  rw [EStateM.bind, hfirst reader rest hplaced hrest]

theorem bind {first : Reading α} {second : α → Reading β} {bits more : List Char} {a : α} {b : β}
    (hfirst : Reads first bits a) (hsecond : Reads (second a) more b) :
    Reads (first >>= second) (bits ++ more) b := by
  intro reader rest hplaced hrest
  rw [List.append_assoc] at hrest
  have hlast := hsecond (reader.forward bits.length) rest (hplaced.forward hrest)
    (Reader.rest_forward_append hplaced hrest)
  rw [hfirst.bind_apply second hplaced hrest, hlast, Reader.forward_forward, List.length_append]

theorem bind_nil {first : Reading α} {second : α → Reading β} {bits : List Char} {a : α} {b : β}
    (hfirst : Reads first [] a) (hsecond : Reads (second a) bits b) :
    Reads (first >>= second) bits b :=
  hfirst.bind hsecond

theorem bind_stay {first : Reading α} {second : α → Reading β} {bits : List Char} {a : α} {b : β}
    (hfirst : Reads first bits a) (hsecond : Reads (second a) [] b) :
    Reads (first >>= second) bits b := by
  have hbind := hfirst.bind hsecond
  rwa [List.append_nil] at hbind

theorem map {action : Reading α} {bits : List Char} {a : α} (f : α → β)
    (h : Reads action bits a) : Reads (do return f (← action)) bits (f a) :=
  h.bind_stay (pure (f a))

end Reads

theorem read_apply (count : Int) (reader : Reader) :
    read count reader =
      match reader.cursor.peek? count with
      | none => .error (.fault .endOfText) reader
      | some chars =>
          .ok chars ⟨reader.cursor.advance count, reader.traced,
            if reader.traced then ("r: " ++ String.ofList chars) :: reader.traces
            else reader.traces⟩ := by
  obtain ⟨cursor, traced, traces⟩ := reader
  simp only [read, peek, bind, EStateM.bind, get, getThe, MonadStateOf.get, EStateM.get]
  cases cursor.peek? count with
  | none => rfl
  | some chars => cases traced <;> rfl

theorem read_short {reader : Reader} (hplaced : reader.Placed) {count : Nat}
    (hshort : reader.rest.length < count) :
    read count reader = .error (.fault .endOfText) reader := by
  rw [Reader.rest] at hshort
  rw [read_apply, Cursor.peek?_eq_take hplaced.nonneg hplaced.within,
    if_neg (Nat.not_le.mpr hshort)]

theorem reads_read {count : Nat} {bits : List Char} (h : bits.length = count) :
    Reads (read count) bits bits := by
  subst h
  intro reader rest hplaced hrest
  rw [read_apply, peek?_rest hplaced hrest]
  simp only [hplaced.untraced, Bool.false_eq_true, if_false]
  rw [Reader.forward, hplaced.untraced]

theorem reads_binary (width value : Nat) (hwidth : 0 < width) (hvalue : value < 2 ^ width) :
    Reads (binary (binaryDigits width value)) [] value := by
  rw [binary, parseInt_binaryDigits hwidth hvalue]
  exact Reads.pure _

theorem reads_operand (width value : Nat) (hwidth : 0 < width) (hvalue : value < 2 ^ width) :
    Reads (operand width) (binaryDigits width value) value := by
  exact (reads_read (length_binaryDigits width value)).bind_stay
    (reads_binary width value hwidth hvalue)

theorem Reads.unique {action : Reading α} {bits more rest later : List Char} {a b : α}
    (hfirst : Reads action bits a) (hsecond : Reads action more b)
    (htext : bits ++ rest = more ++ later) : bits = more ∧ rest = later ∧ a = b := by
  -- Run once on the common text, the action moves by one number of characters.
  have hplaced : Reader.Placed ⟨⟨(bits ++ rest).toArray, 0⟩, false, []⟩ :=
    ⟨rfl, Int.le_refl 0, Int.natCast_nonneg _⟩
  have hone := hfirst _ rest hplaced rfl
  rw [hsecond _ later hplaced htext] at hone
  injection hone with hvalue hreader
  have hpos := congrArg (·.cursor.pos) hreader
  simp only [Reader.forward, Cursor.advance] at hpos
  obtain ⟨hbits, hrest⟩ := List.append_inj htext (by omega)
  exact ⟨hbits, hrest, hvalue.symm⟩

end BitAssembly.Machine
