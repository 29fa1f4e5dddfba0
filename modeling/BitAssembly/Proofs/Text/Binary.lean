import BitAssembly.Proofs.Text.Numerals

/-!
# Binary numerals of a fixed width

The digits of a number in binary, highest first, in exactly so many places.
Places that are missing are lost from the left, so the digits spell the number
modulo a power of two.
-/

namespace BitAssembly.Text

def AllBits (chars : List Char) : Prop :=
  ∀ c ∈ chars, isBit c

@[simp] theorem allBits_nil : AllBits [] := by
  simp [AllBits]

@[simp] theorem allBits_append {first second : List Char} :
    AllBits (first ++ second) ↔ AllBits first ∧ AllBits second := by
  simp [AllBits, or_imp, forall_and]

def bitChar (value : Nat) : Char :=
  if value % 2 = 1 then '1' else '0'

def binaryDigits : Nat → Nat → List Char
  | 0, _ => []
  | width + 1, value => binaryDigits width (value / 2) ++ [bitChar value]

theorem isBit_bitChar (value : Nat) : isBit (bitChar value) := by
  unfold bitChar
  split <;> decide

@[simp] theorem bitValue_bitChar (value : Nat) : bitValue (bitChar value) = value % 2 := by
  unfold bitChar
  by_cases h : value % 2 = 1
  · rw [if_pos h, h]
    rfl
  · have hzero : value % 2 = 0 := by omega
    rw [if_neg h, hzero]
    rfl

@[simp] theorem length_binaryDigits (width value : Nat) :
    (binaryDigits width value).length = width := by
  induction width generalizing value with
  | zero => rfl
  | succ width ih => simp [binaryDigits, ih]

theorem allBits_binaryDigits (width value : Nat) : AllBits (binaryDigits width value) := by
  induction width generalizing value with
  | zero => exact allBits_nil
  | succ width ih =>
      rw [binaryDigits, allBits_append]
      exact ⟨ih (value / 2), List.forall_mem_singleton.mpr (isBit_bitChar value)⟩

theorem digitsValue_concat (radix : Nat) (digits : List Nat) (digit : Nat) :
    digitsValue radix (digits ++ [digit]) = digitsValue radix digits * radix + digit := by
  simp [digitsValue]

theorem digitsValue_binaryDigits (width value : Nat) :
    digitsValue 2 ((binaryDigits width value).map bitValue) = value % 2 ^ width := by
  induction width generalizing value with
  | zero => simp [binaryDigits, digitsValue, Nat.mod_one]
  | succ width ih =>
      have hsplit : value % (2 * 2 ^ width) = value % 2 + 2 * (value / 2 % 2 ^ width) :=
        Nat.mod_mul
      rw [binaryDigits, List.map_append, List.map_singleton, digitsValue_concat, ih,
        bitValue_bitChar, Nat.pow_succ, Nat.mul_comm (2 ^ width) 2, hsplit]
      omega

theorem binaryDigits_add (high low value : Nat) :
    binaryDigits (high + low) value =
      binaryDigits high (value / 2 ^ low) ++ binaryDigits low value := by
  induction low generalizing value with
  | zero => simp [binaryDigits]
  | succ low ih =>
      have hpower : value / 2 / 2 ^ low = value / 2 ^ (low + 1) := by
        rw [Nat.div_div_eq_div_mul, Nat.pow_succ, Nat.mul_comm]
      rw [← Nat.add_assoc, binaryDigits, ih, binaryDigits, hpower, List.append_assoc]

theorem binaryDigits_mod (width value : Nat) :
    binaryDigits width (value % 2 ^ width) = binaryDigits width value := by
  induction width generalizing value with
  | zero => rfl
  | succ width ih =>
      have hhalf : value % 2 ^ (width + 1) / 2 = value / 2 % 2 ^ width := by
        rw [Nat.pow_succ, Nat.mul_comm, Nat.mod_mul]
        omega
      have hlast : value % 2 ^ (width + 1) % 2 = value % 2 :=
        Nat.mod_mod_of_dvd value (Nat.dvd_mul_left 2 (2 ^ width))
      rw [binaryDigits, hhalf, ih, binaryDigits, bitChar, hlast, ← bitChar]

theorem parseInt_binaryDigits {width value : Nat} (hwidth : 0 < width)
    (hvalue : value < 2 ^ width) : parseInt 2 (binaryDigits width value) = .ok (value : Int) := by
  have hne : binaryDigits width value ≠ [] := by
    intro hnil
    have hlength := length_binaryDigits width value
    rw [hnil] at hlength
    simp at hlength
    omega
  rw [parseInt_bits _ (allBits_binaryDigits width value) hne, digitsValue_binaryDigits,
    Nat.mod_eq_of_lt hvalue]

/-! ## The number that bits spell -/

def bitsValue (bits : List Char) : Nat :=
  digitsValue 2 (bits.map bitValue)

theorem bitsValue_concat (bits : List Char) (c : Char) :
    bitsValue (bits ++ [c]) = bitsValue bits * 2 + bitValue c := by
  rw [bitsValue, List.map_append, List.map_singleton, digitsValue_concat, ← bitsValue]

theorem bitsValue_lt (bits : List Char) : bitsValue bits < 2 ^ bits.length := by
  induction bits using List.reverseRecOn with
  | nil => simp [bitsValue, digitsValue]
  | append_singleton bits c ih =>
      have hbit := bitValue_lt_two c
      rw [bitsValue_concat, List.length_append, List.length_singleton, Nat.pow_succ]
      omega

theorem bitChar_bitValue {c : Char} (h : isBit c) : bitChar (bitValue c) = c := by
  simp only [isBit, Bool.or_eq_true, beq_iff_eq] at h
  rcases h with rfl | rfl <;> rfl

theorem binaryDigits_bitsValue {bits : List Char} (h : AllBits bits) :
    binaryDigits bits.length (bitsValue bits) = bits := by
  induction bits using List.reverseRecOn with
  | nil => rfl
  | append_singleton bits c ih =>
      have hbit := bitValue_lt_two c
      have hfront : (bitsValue bits * 2 + bitValue c) / 2 = bitsValue bits := by omega
      have hlast : bitChar (bitsValue bits * 2 + bitValue c) = c := by
        have hparity : (bitsValue bits * 2 + bitValue c) % 2 = bitValue c % 2 := by omega
        rw [bitChar, hparity, ← bitChar, bitChar_bitValue (h c (by simp))]
      rw [List.length_append, List.length_singleton, bitsValue_concat, binaryDigits, hfront,
        hlast, ih (fun d hd => h d (by simp [hd]))]

end BitAssembly.Text
