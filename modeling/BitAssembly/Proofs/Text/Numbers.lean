import BitAssembly.Machine.Console
import BitAssembly.Proofs.Text.Binary

/-!
# Numbers that are printed and read back

The digits of a number, in either case of letters, spell this number: the last one
is the remainder by the radix, and those before it spell the quotient.
-/

namespace BitAssembly.Text

open BitAssembly.Machine

variable {radix : Nat}

theorem exists_denotes {spell : Char → Char} (hradix : 1 < radix)
    (hspell : ∀ digit < radix, radixDigit? radix (spell (Nat.digitChar digit)) = some digit)
    (value : Nat) :
    ∃ digits, Denotes radix ((Nat.toDigits radix value).map spell) digits ∧
      digitsValue radix digits = value := by
  induction value using Nat.strongRecOn with
  | ind value ih =>
      by_cases hsmall : value < radix
      · refine ⟨[value], ?_, by simp [digitsValue]⟩
        rw [Nat.toDigits_of_lt_base hsmall]
        exact .cons (hspell value hsmall) .nil
      · have hpositive : 0 < value := by omega
        obtain ⟨digits, hdigits, hvalue⟩ := ih (value / radix) (Nat.div_lt_self hpositive hradix)
        have hlast := hspell (value % radix) (Nat.mod_lt value (by omega))
        refine ⟨digits ++ [value % radix], ?_, ?_⟩
        · rw [Nat.toDigits_of_base_le hradix (Nat.not_lt.mp hsmall), List.map_append]
          exact List.rel_append hdigits (.cons hlast .nil)
        · rw [digitsValue_concat, hvalue, Nat.div_add_mod']

theorem parseInt_spelled {spell : Char → Char} (hradix : 1 < radix)
    (hspell : ∀ digit < radix, radixDigit? radix (spell (Nat.digitChar digit)) = some digit)
    {value : Nat} (hlimit : radix = 10 → (Nat.toDigits radix value).length ≤ digitLimit) :
    parseInt radix ((Nat.toDigits radix value).map spell) = .ok (value : Int) := by
  obtain ⟨digits, hdigits, hvalue⟩ := exists_denotes hradix hspell value
  have hlength : (Nat.toDigits radix value).length = digits.length := by
    simpa using hdigits.length_eq
  have hne : digits ≠ [] := by
    rw [← List.length_pos_iff, ← hlength]
    exact Nat.length_toDigits_pos
  rw [hlength] at hlimit
  rw [hdigits.parseInt hne hlimit, hvalue]

theorem parseInt_upperHex (value : Nat) :
    parseInt 16 (upperHex value).toList = .ok (value : Int) := by
  have hsign : ¬ (value : Int) < 0 := by omega
  rw [upperHex, String.toList_ofList, if_neg hsign, Int.natAbs_natCast]
  exact parseInt_spelled (by decide) (by decide) fun h => absurd h (by decide)

theorem parseInt_toString {value : Nat} (h : value < 2 ^ 32) :
    parseInt 10 (toString (value : Int)).toList = .ok (value : Int) := by
  have hlength : (Nat.toDigits 10 value).length ≤ 10 :=
    (Nat.length_toDigits_le_iff (by decide) (by decide)).mpr (by omega)
  have htext : (toString (value : Int)).toList = (Nat.toDigits 10 value).map id := by
    rw [List.map_id]
    exact Nat.toList_repr
  rw [htext]
  exact parseInt_spelled (by decide) (by decide) fun _ => hlength.trans (by decide)

end BitAssembly.Text
