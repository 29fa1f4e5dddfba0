import BitAssembly.Proofs.Text.Digits

/-!
# Bits in bytes

Packing fills the last byte with zeros and loses nothing: the bytes, written
out again, are the bits and these zeros.
-/

namespace BitAssembly.Bits

open BitAssembly.Text

variable {bits : List Char}

theorem hasRadixMark_of_not_mem {text : List Char} (h : 'b' ∉ text) :
    hasRadixMark text = false := by
  induction text with
  | nil => rfl
  | cons c text ih =>
      rw [List.mem_cons, not_or] at h
      rw [hasRadixMark.eq_def]
      split
      · simp_all
      · simp_all
      · rfl

theorem isBlank_of_isBit {c : Char} (h : isBit c) : isBlank c = false := by
  rw [isBit, Bool.or_eq_true, beq_iff_eq, beq_iff_eq] at h
  rcases h with rfl | rfl <;> decide

theorem trimBits_bits (h : AllBits bits) : trimBits bits = bits := by
  have hletter : 'b' ∉ bits := fun hmem => absurd (h 'b' hmem) (by decide)
  rw [trimBits, hasRadixMark_of_not_mem hletter]
  exact List.filter_eq_self.mpr fun c hc => by simp [isBlank_of_isBit (h c hc)]

theorem allBits_fillByte (h : AllBits bits) : AllBits (fillByte bits) := by
  rw [fillByte, allBits_append]
  refine ⟨h, fun c hc => ?_⟩
  rw [List.eq_of_mem_replicate hc]
  decide

theorem length_fillByte (bits : List Char) :
    (fillByte bits).length = 8 * ((bits.length + 7) / 8) := by
  rw [fillByte, List.length_append, List.length_replicate]
  omega

theorem pack_bits (h : AllBits bits) (hne : bits ≠ []) :
    pack bits = .ok (bytesOfDigits ((fillByte bits).map bitValue)) := by
  have hfilled : fillByte bits ≠ [] := by simp [fillByte, hne]
  simp only [pack, trimBits_bits h, Numeral.ofText_bits _ (allBits_fillByte h) hfilled]
  simp [bind, Except.bind]

theorem bytesOfDigitsOnto_block {block : List Nat} (hblock : block.length = 8)
    (before : List UInt8) (rest : List Nat) :
    bytesOfDigitsOnto before (block ++ rest) =
      bytesOfDigitsOnto (UInt8.ofNat (digitsValue 2 block) :: before) rest := by
  rcases block with _ | ⟨d7, _ | ⟨d6, _ | ⟨d5, _ | ⟨d4, _ | ⟨d3, _ | ⟨d2, _ | ⟨d1, _ |
    ⟨d0, _ | ⟨more, block⟩⟩⟩⟩⟩⟩⟩⟩⟩ <;> simp at hblock
  rfl

theorem byteBits_ofNat {block : List Char} (h : AllBits block) (hblock : block.length = 8) :
    byteBits (UInt8.ofNat (bitsValue block)) = block := by
  have hvalue := bitsValue_lt block
  rw [hblock] at hvalue
  have hbits := binaryDigits_bitsValue h
  rw [byteBits_eq, UInt8.toNat_ofNat_of_lt' hvalue, ← hblock, hbits]

theorem unpack_bytesOfDigitsOnto (h : AllBits bits) {count : Nat}
    (hlength : bits.length = 8 * count) (before : List UInt8) :
    unpack (bytesOfDigitsOnto before (bits.map bitValue)) = unpack before.reverse ++ bits := by
  induction count generalizing bits before with
  | zero =>
      have hnone : bits = [] := List.length_eq_zero_iff.mp hlength
      rw [hnone, List.append_nil]
      rfl
  | succ count ih =>
      obtain ⟨block, rest, rfl, hblock⟩ : ∃ block rest, bits = block ++ rest ∧ block.length = 8 :=
        ⟨bits.take 8, bits.drop 8, (List.take_append_drop 8 bits).symm, by
          rw [List.length_take]
          omega⟩
      rw [allBits_append] at h
      rw [List.length_append] at hlength
      have hrest := ih h.2 (by omega) (UInt8.ofNat (bitsValue block) :: before)
      rw [List.map_append, bytesOfDigitsOnto_block (by rw [List.length_map, hblock])]
      refine hrest.trans ?_
      simp [unpack, byteBits_ofNat h.1 hblock]

theorem unpack_pack (h : AllBits bits) (hne : bits ≠ []) :
    ∃ bytes, pack bits = .ok bytes ∧ unpack bytes = fillByte bits :=
  ⟨_, pack_bits h hne, unpack_bytesOfDigitsOnto (allBits_fillByte h) (length_fillByte bits) []⟩

end BitAssembly.Bits
