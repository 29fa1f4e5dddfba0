import BitAssembly.Proofs.Machine.Taking
import BitAssembly.Proofs.Structured.Layout

/-!
# Passing over a structured program

A program without definitions is passed over as it is laid out: from its first
bit to the closing mark that ends it.  The name after an inner definition is the
only field that is not accounted for, and then it depends on the bits whether
the end of the block is met.
-/

namespace BitAssembly.Structured

open BitAssembly.Bits
open BitAssembly.Machine
open BitAssembly.Text

variable {edition : Edition}

theorem Operation.fields_ne_load (operation : Operation) :
    binaryDigits 3 operation.code ≠ ['1', '0', '1'] := by
  cases operation <;> decide

theorem length_bytes (bytes : List UInt8) :
    (bytes.flatMap fun byte => binaryDigits 8 byte.toNat).length = bytes.length * 8 := by
  induction bytes with
  | nil => rfl
  | cons byte bytes ih =>
      rw [List.flatMap_cons, List.length_append, ih, length_binaryDigits, List.length_cons]
      omega

theorem operands_load {width : Fin 4} {target : Register} {value : BitVec (8 * (width.val + 1))}
    (hfits : (Plain.load width target value).fits edition) :
    OperandsOf edition ['0', '1', '1'] ((Plain.load width target value).fields edition) := by
  cases edition with
  | basic =>
      have hwidth : width = 0 := by simpa [Plain.fits] using hfits
      subst hwidth
      exact .load _ rfl (by simp [widthField])
  | extended => exact .wideLoad width _ rfl width.isLt (by simp)

theorem spans_instruction_iff {instruction : Plain} (hfits : instruction.fits edition) {depth : Nat}
    {bits : List Char} :
    Spans edition depth (instruction.operation ++ (instruction.fields edition ++ bits)) ↔
      Spans edition depth bits := by
  cases instruction with
  | pause => exact spans_plain_iff .pause
  | alter change register => exact spans_plain_iff (.alter _ (by simp [Plain.fields]))
  | selectPage page => exact spans_plain_iff (.selectPage _ (by simp [Plain.fields]))
  | compute operation target source =>
      exact spans_plain_iff (.compute _ _ (by simp) operation.fields_ne_load (by simp))
  | load width target value => exact spans_plain_iff (operands_load hfits)
  | display form register =>
      exact spans_plain_iff (.display form.code _ (by cases form <;> decide) (by simp))
  | displayByte byte => exact spans_plain_iff (.displayValue _ (by simp))
  | undefine name => exact spans_inner_iff (.named _ _ (.inr rfl) (by simp))
  | call name => exact spans_inner_iff (.named _ _ (.inl rfl) (by simp))
  | write bytes fits =>
      have hedition : edition = .extended := by simpa [Plain.fits] using hfits
      exact spans_inner_iff (.write bytes.length _ hedition fits (length_bytes bytes))
  | exit failed => exact spans_plain_iff (.exit _ rfl (by simp [Plain.fields]))
  | ask decimal register =>
      exact spans_plain_iff (.ask _ _ (by cases decimal <;> decide) (by simp))

/-- The bits of an inner head that are left to be taken for instructions of its body. -/
def Head.leftover : Head → List Char
  | .define name => binaryDigits 4 name
  | _ => []

theorem spans_head_iff (head : Head) {depth : Nat} {bits : List Char} :
    Spans edition depth (['1', '0', '1'] ++ (head.fields ++ bits)) ↔
      Spans edition (depth + 1) (head.leftover ++ bits) := by
  cases head with
  | onlyIf condition =>
      exact spans_inner_iff (.test _ _ (.inl rfl) (by simp [Condition.fields]))
  | whileTrue condition =>
      exact spans_inner_iff (.test _ _ (.inr rfl) (by simp [Condition.fields]))
  | times register => exact spans_inner_iff (.times _ (by simp))
  | count register passes => exact spans_inner_iff (.count _ (by simp))
  | countTo register limit => exact spans_inner_iff (.countTo _ (by simp))
  | define name => exact spans_inner_iff .define

theorem Head.leftover_eq_nil {head : Head} (h : head.isDefinition = false) :
    head.leftover = [] := by
  cases head with
  | define name => simp [Head.isDefinition] at h
  | _ => rfl

theorem spans_program_iff {program : Program} (hfits : program.fits edition)
    (hnone : program.definesNone) {depth : Nat} {bits : List Char} :
    Spans edition (depth + 1) (program.bits edition ++ bits) ↔ Spans edition (depth + 1) bits := by
  induction program generalizing depth bits with
  | done => exact Iff.rfl
  | plain instruction rest ih =>
      simp only [Program.fits, Bool.and_eq_true] at hfits
      rw [bits_plain hfits.1, List.append_assoc, List.append_assoc,
        spans_instruction_iff hfits.1, ih hfits.2 hnone]
  | block head body rest ihBody ihRest =>
      simp only [Program.fits, Bool.and_eq_true] at hfits
      simp only [Program.definesNone, Bool.and_eq_true, Bool.not_eq_true'] at hnone
      rw [bits_block, bodyBits_eq]
      simp only [List.append_assoc]
      rw [spans_head_iff, Head.leftover_eq_nil hnone.1.1, List.nil_append,
        ihBody hfits.1 hnone.1.2, spans_close_iff, ihRest hfits.2 hnone.2]

theorem spans_bodyBits {program : Program} (hfits : program.fits edition)
    (hnone : program.definesNone) : Spans edition 1 (program.bodyBits edition) := by
  rw [bodyBits_eq, spans_program_iff hfits hnone]
  exact .last

/-! ## Bodies that are taken as they stand -/

/-- Whatever stands before and after these bits, the body that is taken from where they
begin is these bits, and reading goes on behind them. -/
def Collects (edition : Edition) (bits : List Char) : Prop :=
  ∀ (spare : Nat) (before rest : List Char),
    fetchBody edition false spare ⟨⟨(before ++ (bits ++ rest)).toArray, before.length⟩, false, []⟩ =
      .ok bits.toArray
        ⟨⟨(before ++ (bits ++ rest)).toArray, before.length + bits.length⟩, false, []⟩

theorem collects_iff_spans {bits : List Char} (hbits : AllBits bits) :
    Collects edition bits ↔ Spans edition 1 bits := by
  constructor
  · intro h
    have hbody := h 0 [] []
    rw [List.nil_append, List.append_nil] at hbody
    have hvalid : Reader.Valid ⟨⟨bits.toArray, 0⟩, false, []⟩ :=
      ⟨hbits, Int.le_refl 0, Int.natCast_nonneg _⟩
    have htakes := @takesBits_fetchBody edition false 0 _ hvalid.onBits
    rw [List.length_nil, Int.natCast_zero] at hbody
    rw [hbody] at htakes
    obtain ⟨taken, -, htaken, hspans⟩ := htakes
    rw [List.toArray_inj htaken]
    exact hspans
  · intro h spare before rest
    refine reads_fetchBody h spare _ rest ⟨rfl, Int.natCast_nonneg _, ?_⟩ ?_
    · simp only [List.size_toArray, List.length_append]
      omega
    · simp [Reader.rest, Cursor.rest]

theorem allBits_bodyBits (program : Program) : AllBits (program.bodyBits edition) := by
  rw [Program.bodyBits, allBits_append]
  exact ⟨allBits_tokenBits _, allBits_tokenBits _⟩

def Program.append : Program → Program → Program
  | .done, last => last
  | .plain instruction rest, last => .plain instruction (rest.append last)
  | .block head body rest, last => .block head body (rest.append last)

theorem Program.bits_append (front last : Program) :
    (front.append last).bits edition = front.bits edition ++ last.bits edition := by
  rw [Program.bits, Program.bits, Program.bits, ← tokenBits_append]
  congr 1
  induction front with
  | done => rfl
  | plain instruction rest ih => rw [append, tokens, tokens, ih, List.append_assoc]
  | block head body rest _ ih =>
      rw [append, tokens, tokens, ih, List.append_assoc _ _ (last.tokens edition),
        List.cons_append]

theorem Program.fits_append (front last : Program) :
    (front.append last).fits edition = (front.fits edition && last.fits edition) := by
  induction front with
  | done => rfl
  | plain instruction rest ih => rw [append, fits, fits, ih, Bool.and_assoc]
  | block head body rest _ ih => rw [append, fits, fits, ih, Bool.and_assoc]

/-- A body is taken as it stands exactly if its bits have a derivation.  They have one if the
body defines no function.  Behind an inner definition, the name has to lead to the end as
well, as the first instructions of one more block. -/
theorem collects_bodyBits_iff (edition : Edition) (program : Program)
    (hfits : program.fits edition) :
    (Collects edition (program.bodyBits edition) ↔ Spans edition 1 (program.bodyBits edition)) ∧
      (program.definesNone → Collects edition (program.bodyBits edition)) ∧
      ∀ (front : Program) (name : Name) (body rest : Program), front.definesNone →
        program = front.append (.block (.define name) body rest) →
        (Collects edition (program.bodyBits edition) ↔
          Spans edition 2
            (binaryDigits 4 name ++ (body.bodyBits edition ++ rest.bodyBits edition))) := by
  have hcollects : Collects edition (program.bodyBits edition) ↔
      Spans edition 1 (program.bodyBits edition) :=
    collects_iff_spans (allBits_bodyBits program)
  refine ⟨hcollects, fun hnone => hcollects.mpr (spans_bodyBits hfits hnone), ?_⟩
  rintro front name body rest hnone rfl
  rw [Program.fits_append, Bool.and_eq_true] at hfits
  rw [hcollects, bodyBits_eq, Program.bits_append, bits_block, List.append_assoc,
    spans_program_iff hfits.1 hnone, List.append_assoc, List.append_assoc, spans_head_iff,
    List.append_assoc, ← bodyBits_eq rest]
  rfl

theorem collects_bodyBits_nested :
    let inner : Program := .plain (.write [0xb6, 0xd5, 0xad] (by decide))
      (.plain (.load 3 2 0xb6d5adb6#32) .done)
    let program : Program := .block (.onlyIf ⟨1, .differ, 10⟩)
      (.block (.count 5 0xad) inner (.block (.whileTrue ⟨6, .atMost, 13⟩) .done .done)) .done
    program.fits .extended ∧ program.definesNone ∧
      Collects .extended (program.bodyBits .extended) := by
  intro inner program
  have hfits : program.fits .extended := by decide
  have hnone : program.definesNone := by decide
  exact ⟨hfits, hnone, (collects_bodyBits_iff .extended program hfits).2.1 hnone⟩

/-- An empty function of the name zero, defined inside a block. -/
theorem not_collects_inner_definition :
    let program : Program := .block (.define 0) .done .done
    program.fits .basic ∧ ¬ Collects .basic (program.bodyBits .basic) ∧
      program.fits .extended ∧ ¬ Collects .extended (program.bodyBits .extended) := by
  intro program
  -- The name and the closing marks are read as a pause and an operation without operands.
  have hfault : ∀ edition,
      (match fetchBody edition false 0 ⟨⟨(program.bodyBits edition).toArray, 0⟩, false, []⟩ with
        | .ok _ _ => false
        | .error stop _ => stop = .fault .endOfText) = true := by
    intro edition
    cases edition <;> decide +kernel
  have hnot : ∀ edition, ¬ Collects edition (program.bodyBits edition) := by
    intro edition h
    have hbody := h 0 [] []
    have hstop := hfault edition
    simp only [List.nil_append, List.append_nil, List.length_nil, Int.natCast_zero] at hbody
    rw [hbody] at hstop
    cases hstop
  exact ⟨rfl, hnot .basic, rfl, hnot .extended⟩

end BitAssembly.Structured
