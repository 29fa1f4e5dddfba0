import BitAssembly.Proofs.Bits.Packing

/-!
# The format of program files

Bits that are packed come back with the zeros that fill the last byte, and
bytes that are unpacked come back as they were.  Blanks among the bits and a
radix mark before them leave no mark in the bytes.
-/

namespace BitAssembly.Bits

open BitAssembly.Text

/-! ## Bytes written out -/

theorem length_byteBits (byte : UInt8) : (byteBits byte).length = 8 := by
  rw [byteBits_eq, length_binaryDigits]

theorem ofNat_byteBits (byte : UInt8) : UInt8.ofNat (bitsValue (byteBits byte)) = byte := by
  rw [byteBits_eq, bitsValue, digitsValue_binaryDigits, Nat.mod_eq_of_lt byte.toNat_lt,
    UInt8.ofNat_toNat]

theorem allBits_unpack (bytes : List UInt8) : AllBits (unpack bytes) := by
  intro c hc
  obtain ⟨byte, -, hc⟩ := List.mem_flatMap.mp hc
  rw [byteBits_eq] at hc
  exact allBits_binaryDigits 8 byte.toNat c hc

theorem length_unpack (bytes : List UInt8) : (unpack bytes).length = 8 * bytes.length := by
  induction bytes with
  | nil => rfl
  | cons byte bytes ih =>
      rw [unpack, List.flatMap_cons, ← unpack, List.length_append, ih, length_byteBits,
        List.length_cons]
      omega

theorem bytesOfDigitsOnto_unpack (bytes before : List UInt8) :
    bytesOfDigitsOnto before ((unpack bytes).map bitValue) = before.reverse ++ bytes := by
  induction bytes generalizing before with
  | nil => exact (List.append_nil _).symm
  | cons byte bytes ih =>
      have hblock : ((byteBits byte).map bitValue).length = 8 := by
        rw [List.length_map, length_byteBits]
      rw [unpack, List.flatMap_cons, ← unpack, List.map_append,
        bytesOfDigitsOnto_block hblock, ← bitsValue, ofNat_byteBits, ih]
      simp

theorem fillByte_unpack (bytes : List UInt8) : fillByte (unpack bytes) = unpack bytes := by
  rw [fillByte, length_unpack, Nat.mul_mod_right]
  simp

theorem pack_unpack {bytes : List UInt8} (hne : bytes ≠ []) : pack (unpack bytes) = .ok bytes := by
  have hbits : unpack bytes ≠ [] := by
    intro hnil
    have hlength := length_unpack bytes
    rw [hnil, List.length_nil] at hlength
    exact hne (List.length_eq_zero_iff.mp (by omega))
  rw [pack_bits (allBits_unpack bytes) hbits, fillByte_unpack, bytesOfDigits,
    bytesOfDigitsOnto_unpack]
  rfl

/-! ## Blanks and radix marks -/

/-- The second text is the first one with blanks put in anywhere. -/
inductive BlanksAmong : List Char → List Char → Prop
  | done : BlanksAmong [] []
  | keep (c : Char) {bits text : List Char} (h : BlanksAmong bits text) :
      BlanksAmong (c :: bits) (c :: text)
  | blank {c : Char} (hc : isBlank c) {bits text : List Char} (h : BlanksAmong bits text) :
      BlanksAmong bits (c :: text)

theorem BlanksAmong.filter {bits text : List Char} (h : BlanksAmong bits text)
    (hbits : AllBits bits) : (text.filter fun c => !isBlank c) = bits := by
  induction h with
  | done => rfl
  | keep c h ih =>
      have hc : isBlank c = false := isBlank_of_isBit (hbits c List.mem_cons_self)
      rw [List.filter_cons_of_pos (by simp [hc]),
        ih fun d hd => hbits d (List.mem_cons_of_mem c hd)]
  | blank hc h ih => rw [List.filter_cons_of_neg (by simp [hc]), ih hbits]

theorem BlanksAmong.not_mem_letter {bits text : List Char} (h : BlanksAmong bits text)
    (hbits : AllBits bits) : 'b' ∉ text := by
  intro hmem
  have hkept : 'b' ∈ text.filter fun c => !isBlank c := List.mem_filter.mpr ⟨hmem, by decide⟩
  rw [h.filter hbits] at hkept
  exact absurd (hbits 'b' hkept) (by decide)

theorem pack_congr {text other : List Char} (h : trimBits text = trimBits other) :
    pack text = pack other := by
  rw [pack, pack, h]

theorem pack_blanksAmong {bits text : List Char} (h : BlanksAmong bits text)
    (hbits : AllBits bits) : pack text = pack bits ∧ pack (['0', 'b'] ++ text) = pack bits := by
  have hplain : trimBits text = bits := by
    rw [trimBits, hasRadixMark_of_not_mem (h.not_mem_letter hbits)]
    exact h.filter hbits
  have hmarked : trimBits (['0', 'b'] ++ text) = bits := h.filter hbits
  constructor
  · exact pack_congr (hplain.trans (trimBits_bits hbits).symm)
  · exact pack_congr (hmarked.trans (trimBits_bits hbits).symm)

/-! ## There and back -/

theorem isLeast_fill (length : Nat) :
    IsLeast {zeros | 8 ∣ length + zeros} ((8 - length % 8) % 8) := by
  constructor
  · change 8 ∣ length + (8 - length % 8) % 8
    omega
  · intro zeros (hzeros : 8 ∣ length + zeros)
    omega

/-- Bits are packed in bytes that unpack to these bits and the fewest zeros that fill a byte;
bytes are unpacked to bits that pack to these bytes; and blanks anywhere among the bits, with or
without a radix mark before the whole, do not change the bytes. -/
theorem pack_roundTrip :
    (∀ bits, AllBits bits → bits ≠ [] →
      ∃ bytes zeros, pack bits = .ok bytes ∧ unpack bytes = bits ++ List.replicate zeros '0' ∧
        IsLeast {count | 8 ∣ bits.length + count} zeros) ∧
    (∀ bytes, bytes ≠ [] → pack (unpack bytes) = .ok bytes) ∧
    (∀ bits text, AllBits bits → BlanksAmong bits text →
      pack text = pack bits ∧ pack (['0', 'b'] ++ text) = pack bits) := by
  refine ⟨fun bits hbits hne => ?_, fun bytes hne => pack_unpack hne, ?_⟩
  · obtain ⟨bytes, hpack, hunpack⟩ := unpack_pack hbits hne
    exact ⟨bytes, _, hpack, hunpack, isLeast_fill bits.length⟩
  · intro bits text hbits hblanks
    exact pack_blanksAmong hblanks hbits

theorem pack_roundTrip_leading_zeros :
    let bits := "00000000101".toList
    let text := "0000\n0000\t10 1 ".toList
    AllBits bits ∧ BlanksAmong bits text ∧
      (∃ bytes zeros, pack bits = .ok bytes ∧ unpack bytes = bits ++ List.replicate zeros '0' ∧
        IsLeast {count | 8 ∣ bits.length + count} zeros) ∧
      pack (unpack [0, 0xa0]) = .ok [0, 0xa0] ∧
      pack text = pack bits ∧ pack (['0', 'b'] ++ text) = pack bits := by
  intro bits text
  have hbits : AllBits bits := by
    have hall : bits.all isBit := by decide +kernel
    exact List.all_eq_true.mp hall
  have hblanks : BlanksAmong bits text := by
    have hend : BlanksAmong [] [' '] := .blank (by decide) .done
    have hlast : BlanksAmong ['1'] [' ', '1', ' '] := .blank (by decide) (.keep _ hend)
    have htab : BlanksAmong ['1', '0', '1'] ['\t', '1', '0', ' ', '1', ' '] :=
      .blank (by decide) (.keep _ (.keep _ hlast))
    have hfeed : BlanksAmong ['0', '0', '0', '0', '1', '0', '1']
        ['\n', '0', '0', '0', '0', '\t', '1', '0', ' ', '1', ' '] :=
      .blank (by decide) (.keep _ (.keep _ (.keep _ (.keep _ htab))))
    exact .keep _ (.keep _ (.keep _ (.keep _ hfeed)))
  obtain ⟨hbytes, hback, hsame⟩ := pack_roundTrip
  exact ⟨hbits, hblanks, hbytes bits hbits (by decide), hback _ (by decide),
    hsame bits text hbits hblanks⟩

end BitAssembly.Bits
