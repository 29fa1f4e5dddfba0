import Mathlib
import BitAssembly.Text.Numeral

/-!
# Texts of digits

A text of digits has no sign, no blanks and no radix mark, so a numeral takes all of
it.  This holds in every radix, and of texts of bits in particular.
-/

namespace BitAssembly.Text

variable {radix digit : Nat} {c : Char} {chars : List Char} {digits : List Nat}

/-! ## Digits -/

theorem blankRanges_not_digits : blankRanges.all fun range =>
    (List.range' range.1 (range.2 + 1 - range.1)).all fun code =>
      (digitValue? (Char.ofNat code)).isNone := by
  decide +kernel

theorem digitValue?_of_isBlank (h : isBlank c) : digitValue? c = none := by
  obtain ⟨range, hrange, hcode⟩ := List.any_eq_true.mp h
  simp only [Bool.and_eq_true, decide_eq_true_eq] at hcode
  have hnone := List.all_eq_true.mp (List.all_eq_true.mp blankRanges_not_digits range hrange)
    c.toNat (List.mem_range'_1.mpr (by omega))
  rwa [Char.ofNat_toNat, Option.isNone_iff_eq_none] at hnone

theorem digitValue?_of_digit (h : radixDigit? radix c = some digit) : digitValue? c = some digit :=
  (Option.filter_eq_some_iff.mp h).1

theorem ne_of_digit {other : Char} (h : radixDigit? radix c = some digit)
    (hother : digitValue? other = none) : c ≠ other := by
  rintro rfl
  rw [digitValue?_of_digit h] at hother
  cases hother

theorem not_numeralBlank_of_digit (h : radixDigit? radix c = some digit) : ¬ isNumeralBlank c := by
  intro hblank
  have hnone := digitValue?_of_isBlank (Bool.and_eq_true_iff.mp hblank).1
  rw [digitValue?_of_digit h] at hnone
  cases hnone

theorem not_radixMark_of_digit (h : radixDigit? radix c = some digit) :
    ¬ isRadixMark radix c := by
  intro hmark
  simp only [isRadixMark, Bool.or_eq_true, Bool.and_eq_true, beq_iff_eq] at hmark
  have hnone : radixDigit? radix c = none := by
    rcases hmark with ⟨rfl, rfl | rfl⟩ | ⟨rfl, rfl | rfl⟩ <;> decide
  rw [h] at hnone
  cases hnone

/-! ## Texts of digits -/

/-- The characters are digits of the radix, and these are their values. -/
def Denotes (radix : Nat) (chars : List Char) (digits : List Nat) : Prop :=
  List.Forall₂ (fun c digit => radixDigit? radix c = some digit) chars digits

theorem Denotes.takeDigits (h : Denotes radix chars digits) (before : List Nat) :
    takeDigits radix chars false before = some (before.reverse ++ digits, []) := by
  induction h generalizing before with
  | nil => simp [Text.takeDigits]
  | @cons c digit chars digits hc _ ih =>
      have hunderscore : c ≠ '_' := ne_of_digit hc (by decide)
      rw [Text.takeDigits, if_neg hunderscore, hc]
      simp [ih]

theorem Denotes.takeSign (h : Denotes radix chars digits) : takeSign chars = (false, chars) := by
  rw [takeSign.eq_def]
  cases h with
  | nil => rfl
  | cons hc _ =>
      split
      · next heq => exact absurd (List.cons.inj heq).1 (ne_of_digit hc (by decide))
      · next heq => exact absurd (List.cons.inj heq).1 (ne_of_digit hc (by decide))
      · rfl

theorem Denotes.dropWhile_blank (h : Denotes radix chars digits) :
    chars.dropWhile isNumeralBlank = chars := by
  cases h with
  | nil => rfl
  | cons hc _ => exact List.dropWhile_cons_of_neg (not_numeralBlank_of_digit hc)

theorem Denotes.dropRadixMark (h : Denotes radix chars digits) :
    dropRadixMark radix chars = chars := by
  rw [dropRadixMark.eq_def]
  split
  · next first mark rest =>
      cases h with
      | cons _ h =>
          cases h with
          | cons hmark _ => simp [not_radixMark_of_digit hmark]
  · rfl

theorem Denotes.head_ne (h : Denotes radix chars digits) : chars.head? ≠ some '_' := by
  cases h with
  | nil => simp
  | cons hc _ => simpa using ne_of_digit hc (by decide)

theorem Denotes.ofText (h : Denotes radix chars digits) (hne : digits ≠ [])
    (hlimit : radix = 10 → digits.length ≤ digitLimit) :
    Numeral.ofText radix chars = .ok ⟨false, digits⟩ := by
  simp only [Numeral.ofText, h.dropWhile_blank, h.takeSign, h.dropRadixMark, if_neg h.head_ne,
    h.takeDigits, List.reverse_nil, List.nil_append]
  rw [if_neg fun hlong => Nat.not_lt.mpr (hlimit hlong.1) hlong.2]
  simp [hne]

theorem Denotes.parseInt (h : Denotes radix chars digits) (hne : digits ≠ [])
    (hlimit : radix = 10 → digits.length ≤ digitLimit) :
    parseInt radix chars = .ok (digitsValue radix digits : Int) := by
  rw [Text.parseInt, h.ofText hne hlimit]
  rfl

/-! ## Texts of bits -/

theorem denotes_bits {bits : List Char} (h : ∀ c ∈ bits, isBit c) :
    Denotes 2 bits (bits.map bitValue) := by
  rw [Denotes, List.forall₂_map_right_iff, List.forall₂_same]
  exact fun c hc => radixDigit?_of_isBit (h c hc)

theorem Numeral.ofText_bits (bits : List Char) (h : ∀ c ∈ bits, isBit c) (hne : bits ≠ []) :
    Numeral.ofText 2 bits = .ok ⟨false, bits.map bitValue⟩ :=
  (denotes_bits h).ofText (by simpa using hne) fun hradix => absurd hradix (by decide)

theorem parseInt_bits (bits : List Char) (h : ∀ c ∈ bits, isBit c) (hne : bits ≠ []) :
    parseInt 2 bits = .ok (digitsValue 2 (bits.map bitValue) : Int) :=
  (denotes_bits h).parseInt (by simpa using hne) fun hradix => absurd hradix (by decide)

end BitAssembly.Text
