import BitAssembly.Bits.Bytes
import BitAssembly.Proofs.Text.Binary
import BitAssembly.Text.Quoted

/-!
# Digits of numerals

A numeral of a fixed width is the shortest numeral with zeros before it.  Its
last digit is the remainder by the radix, and what stands before that is a
numeral that is one place shorter.  A text that cannot be read as a number is no
numeral, or a decimal one with too many digits.
-/

namespace BitAssembly.Text

open BitAssembly.Bits

def padded (radix width value : Nat) : List Char :=
  List.replicate (width - (Nat.toDigits radix value).length) '0' ++ Nat.toDigits radix value

theorem padded_one {radix value : Nat} (hvalue : value < radix) :
    padded radix 1 value = [Nat.digitChar value] := by
  simp [padded, Nat.toDigits_of_lt_base hvalue]

theorem padded_succ {radix width : Nat} (hradix : 1 < radix) (hwidth : 0 < width) (value : Nat) :
    padded radix (width + 1) value =
      padded radix width (value / radix) ++ [Nat.digitChar (value % radix)] := by
  by_cases hvalue : value < radix
  · obtain ⟨less, rfl⟩ := Nat.exists_eq_add_one.mpr hwidth
    have hzero : value / radix = 0 := Nat.div_eq_of_lt hvalue
    rw [hzero, Nat.mod_eq_of_lt hvalue, padded, padded, Nat.toDigits_of_lt_base hvalue,
      Nat.toDigits_zero]
    simp [List.replicate_succ']
  · rw [padded, padded, Nat.toDigits_of_base_le hradix (by omega)]
    simp

theorem padded_binary {width value : Nat} (hwidth : 0 < width) (hvalue : value < 2 ^ width) :
    padded 2 width value = binaryDigits width value := by
  induction width generalizing value with
  | zero => omega
  | succ width ih =>
      have hdigit : Nat.digitChar (value % 2) = bitChar value := by
        rcases Nat.mod_two_eq_zero_or_one value with h | h <;> simp [bitChar, h]
      cases width with
      | zero =>
          have hsmall : value < 2 := by simpa using hvalue
          rw [padded_one hsmall, ← Nat.mod_eq_of_lt hsmall, hdigit, Nat.mod_eq_of_lt hsmall]
          rfl
      | succ width =>
          have hhalf : value / 2 < 2 ^ (width + 1) := by
            rw [Nat.pow_succ] at hvalue
            omega
          rw [padded_succ (by decide) (by omega), ih (by omega) hhalf, hdigit]
          rfl

theorem byteBits_eq (byte : UInt8) : byteBits byte = binaryDigits 8 byte.toNat :=
  padded_binary (by decide) byte.toNat_lt

theorem parseInt_eq_error {radix : Nat} {line : List Char} {fault : Fault}
    (h : parseInt radix line = .error fault) :
    fault = .badNumeral radix ∨ radix = 10 ∧ ∃ digits, fault = .longNumeral digits := by
  rw [parseInt] at h
  cases hnumeral : Numeral.ofText radix line with
  | ok numeral =>
      rw [hnumeral] at h
      cases h
  | error reason =>
      rw [hnumeral] at h
      cases h
      simp only [Numeral.ofText] at hnumeral
      split at hnumeral
      · cases hnumeral
        exact .inl rfl
      split at hnumeral
      · cases hnumeral
        exact .inl rfl
      split at hnumeral
      · next hlong =>
          cases hnumeral
          exact .inr ⟨hlong.1, _, rfl⟩
      split at hnumeral
      · cases hnumeral
        exact .inl rfl
      · cases hnumeral

end BitAssembly.Text
