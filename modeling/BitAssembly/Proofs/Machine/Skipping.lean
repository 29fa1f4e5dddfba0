import BitAssembly.Proofs.Machine.Reading

/-!
# Passing over a block

The grammar of what is passed over, with the number of bits that each operation
and each inner head is taken to have.  A block is passed over exactly if its
bits have a derivation from one open block to none.
-/

namespace BitAssembly.Machine

open BitAssembly.Text

variable {edition : Edition}

/-- The operands that are taken to follow an operation which opens no block. -/
inductive OperandsOf (edition : Edition) : List Char → List Char → Prop
  | pause : OperandsOf edition ['0', '0', '0'] []
  | alter (bits) (h : bits.length = 7) : OperandsOf edition ['0', '0', '1'] bits
  | selectPage (bits) (h : bits.length = 3) : OperandsOf edition ['0', '1', '0'] bits
  | compute (mode bits) (hmode : mode.length = 3) (hload : mode ≠ ['1', '0', '1'])
      (h : bits.length = 8) : OperandsOf edition ['0', '1', '1'] (mode ++ bits)
  | load (bits) (hedition : edition = .basic) (h : bits.length = 12) :
      OperandsOf edition ['0', '1', '1'] (['1', '0', '1'] ++ bits)
  | wideLoad (width : Nat) (bits) (hedition : edition = .extended) (hwidth : width < 4)
      (h : bits.length = 4 + 8 * (width + 1)) :
      OperandsOf edition ['0', '1', '1'] (['1', '0', '1'] ++ (binaryDigits 2 width ++ bits))
  | display (mode : Nat) (bits) (hmode : mode < 3) (h : bits.length = 4) :
      OperandsOf edition ['1', '0', '0'] (binaryDigits 2 mode ++ bits)
  | displayValue (bits) (h : bits.length = 8) :
      OperandsOf edition ['1', '0', '0'] (['1', '1'] ++ bits)
  | exit (mode) (hmode : mode.length = 2) (hask : mode ≠ ['1', '0'] ∧ mode ≠ ['1', '1']) :
      OperandsOf edition ['1', '1', '1'] mode
  | ask (mode bits) (hmode : mode = ['1', '0'] ∨ mode = ['1', '1']) (h : bits.length = 4) :
      OperandsOf edition ['1', '1', '1'] (mode ++ bits)

/-- The rest of an inner head after its operation code, and whether it is taken to
open a block.  A definition is taken to have no operand. -/
inductive InnerHead (edition : Edition) : List Char → Bool → Prop
  | test (kind bits) (hkind : kind = ['0', '0', '0'] ∨ kind = ['1', '1', '0'])
      (h : bits.length = 10) : InnerHead edition (kind ++ bits) true
  | named (kind bits) (hkind : kind = ['1', '0', '0'] ∨ kind = ['0', '1', '1'])
      (h : bits.length = 4) : InnerHead edition (kind ++ bits) false
  | count (bits) (h : bits.length = 12) : InnerHead edition (['1', '0', '1', '0'] ++ bits) true
  | countTo (bits) (h : bits.length = 8) : InnerHead edition (['1', '0', '1', '1'] ++ bits) true
  | times (bits) (h : bits.length = 4) : InnerHead edition (['0', '0', '1'] ++ bits) true
  | write (size : Nat) (bits) (hedition : edition = .extended) (hsize : size < 2 ^ 16)
      (h : bits.length = size * 8) :
      InnerHead edition (['1', '1', '1'] ++ (binaryDigits 16 size ++ bits)) false
  | unassigned (hedition : edition = .basic) : InnerHead edition ['1', '1', '1'] true
  | define : InnerHead edition ['0', '1', '0'] true

/-- Bits that lead from so many open blocks to none. -/
inductive Spans (edition : Edition) : Nat → List Char → Prop
  | last : Spans edition 1 ['1', '1', '0']
  | close {depth bits} (h : Spans edition (depth + 1) bits) :
      Spans edition (depth + 2) (['1', '1', '0'] ++ bits)
  | plain {depth op operands bits} (hitem : OperandsOf edition op operands)
      (h : Spans edition depth bits) : Spans edition depth (op ++ (operands ++ bits))
  | inner {depth head opens bits} (hitem : InnerHead edition head opens)
      (h : Spans edition (if opens then depth + 1 else depth) bits) :
      Spans edition depth (['1', '0', '1'] ++ (head ++ bits))

/-! ## What has a derivation is passed over -/

theorem exists_append_of_length (first second : Nat) {bits : List Char}
    (h : bits.length = first + second) :
    ∃ front back, bits = front ++ back ∧ front.length = first ∧ back.length = second :=
  ⟨bits.take first, bits.drop first, (List.take_append_drop first bits).symm,
    by simp [h], by simp [h]⟩

theorem reads_skipOperands {op operands : List Char} (h : OperandsOf edition op operands) :
    Reads (skipOperands edition op) operands operands := by
  cases h with
  | pause => exact Reads.pure []
  | alter bits h => exact reads_read h
  | selectPage bits h => exact reads_read h
  | compute mode bits hmode hload h =>
      refine Reads.bind (reads_read hmode) ?_
      rw [if_neg hload]
      cases edition with
      | basic =>
          obtain ⟨target, source, rfl, htarget, hsource⟩ :=
            exists_append_of_length 4 4 h
          rw [← List.append_assoc]
          exact Reads.bind (reads_read htarget) ((reads_read hsource).map _)
      | extended => exact (reads_read h).map _
  | load bits hedition h =>
      subst hedition
      obtain ⟨target, value, rfl, htarget, hvalue⟩ :=
        exists_append_of_length 4 8 h
      refine Reads.bind (reads_read rfl) ?_
      rw [← List.append_assoc]
      exact Reads.bind (reads_read htarget) ((reads_read hvalue).map _)
  | wideLoad width bits hedition hwidth h =>
      subst hedition
      obtain ⟨target, value, rfl, htarget, hvalue⟩ := exists_append_of_length _ _ h
      refine Reads.bind (reads_read rfl) ?_
      refine Reads.bind (reads_read (length_binaryDigits 2 width)) ?_
      refine Reads.bind (reads_read htarget) ?_
      refine Reads.bind_nil (reads_binary 2 width (by decide) hwidth) ?_
      rw [← List.append_assoc, ← List.append_assoc]
      exact (reads_read hvalue).map _
  | display mode bits hmode h =>
      refine Reads.bind (reads_read (length_binaryDigits 2 mode)) ?_
      refine Reads.bind_nil (reads_binary 2 mode (by decide) (by omega)) ?_
      rw [if_pos (by omega)]
      exact (reads_read h).map _
  | displayValue bits h =>
      refine Reads.bind (reads_read rfl) ?_
      refine Reads.bind_nil (reads_binary 2 3 (by decide) (by decide)) ?_
      exact (reads_read h).map _
  | exit _ hmode hask =>
      have hneither : ¬ (operands = ['1', '0'] ∨ operands = ['1', '1']) := by
        rintro (h | h)
        · exact hask.1 h
        · exact hask.2 h
      refine Reads.bind_stay (reads_read hmode) ?_
      rw [if_neg hneither]
      exact Reads.pure operands
  | ask mode bits hmode h =>
      have hlength : mode.length = 2 := by rcases hmode with rfl | rfl <;> rfl
      refine Reads.bind (reads_read hlength) ?_
      rw [if_pos hmode]
      exact (reads_read h).map _

theorem reads_skipHead {head : List Char} {opens : Bool} (h : InnerHead edition head opens) :
    Reads (skipHead edition) head (head, opens) := by
  cases h with
  | test kind bits hkind h =>
      have hlength : kind.length = 3 := by rcases hkind with rfl | rfl <;> rfl
      refine Reads.bind (reads_read hlength) ?_
      rw [if_pos hkind]
      exact (reads_read h).map fun rest => (kind ++ rest, true)
  | named kind bits hkind h =>
      rcases hkind with rfl | rfl
      · exact Reads.bind (reads_read rfl) ((reads_read h).map fun rest => (_ ++ rest, false))
      · exact Reads.bind (reads_read rfl) ((reads_read h).map fun rest => (_ ++ rest, false))
  | count bits h =>
      have hkind : Reads (read 3) ['1', '0', '1'] ['1', '0', '1'] := reads_read rfl
      have hmode : Reads (read 1) ['0'] ['0'] := reads_read rfl
      exact hkind.bind (hmode.bind ((reads_read h).map fun rest => (_ ++ rest, true)))
  | countTo bits h =>
      have hkind : Reads (read 3) ['1', '0', '1'] ['1', '0', '1'] := reads_read rfl
      have hmode : Reads (read 1) ['1'] ['1'] := reads_read rfl
      exact hkind.bind (hmode.bind ((reads_read h).map fun rest => (_ ++ rest, true)))
  | times bits h =>
      exact Reads.bind (reads_read rfl) ((reads_read h).map fun rest => (_ ++ rest, true))
  | write size bits hedition hsize h =>
      subst hedition
      refine Reads.bind (reads_read rfl) ?_
      refine Reads.bind (reads_read (length_binaryDigits 16 size)) ?_
      refine Reads.bind_nil (reads_binary 16 size (by decide) hsize) ?_
      rw [← List.append_assoc]
      exact (reads_read h).map fun rest => (_ ++ rest, false)
  | unassigned hedition =>
      subst hedition
      exact Reads.bind_stay (reads_read rfl) (Reads.pure _)
  | define => exact Reads.bind_stay (reads_read rfl) (Reads.pure _)

theorem skipBlock_succ (edition : Edition) (fuel depth : Nat) (chunk : Body) :
    skipBlock edition false (fuel + 1) depth chunk = (do
      let op ← read 3
      if op = ['1', '0', '1'] then
        let item ← skipHead edition
        skipBlock edition false fuel (if item.2 then depth + 1 else depth) (chunk ++ op ++ item.1)
      else if op = ['1', '1', '0'] then
        if depth ≤ 1 then return chunk ++ op
        else skipBlock edition false fuel (depth - 1) (chunk ++ op)
      else
        let operands ← skipOperands edition op
        skipBlock edition false fuel depth (chunk ++ op ++ operands)) :=
  rfl

theorem appendList_append (chunk : Body) (first second : List Char) :
    chunk ++ (first ++ second) = chunk ++ first ++ second := by
  apply Array.ext'
  simp

theorem skipBlock_inner {head rest : List Char} {opens : Bool}
    (hitem : InnerHead edition head opens) {reader : Reader} (hplaced : reader.Placed)
    (hrest : reader.rest = ['1', '0', '1'] ++ (head ++ rest)) (fuel depth : Nat) (chunk : Body) :
    skipBlock edition false (fuel + 1) depth chunk reader =
      skipBlock edition false fuel (if opens then depth + 1 else depth)
        (chunk ++ (['1', '0', '1'] ++ head)) (reader.forward (['1', '0', '1'] ++ head).length) := by
  have hop : Reads (read 3) ['1', '0', '1'] ['1', '0', '1'] := reads_read rfl
  have hhead := (reads_skipHead hitem).bind_apply
    (fun item => skipBlock edition false fuel (if item.2 then depth + 1 else depth)
      (chunk ++ ['1', '0', '1'] ++ item.1))
    (hplaced.forward hrest) (Reader.rest_forward_append hplaced hrest)
  rw [skipBlock_succ, hop.bind_apply _ hplaced hrest, if_pos rfl, hhead, Reader.forward_forward,
    appendList_append, List.length_append]

theorem OperandsOf.operation {op operands : List Char} (h : OperandsOf edition op operands) :
    op.length = 3 ∧ op ≠ ['1', '0', '1'] ∧ op ≠ ['1', '1', '0'] := by
  cases h <;> exact ⟨rfl, by decide, by decide⟩

theorem reads_skipBlock {depth : Nat} {bits : List Char} (h : Spans edition depth bits)
    (fuel : Nat) (hfuel : bits.length ≤ fuel) (chunk : Body) :
    Reads (skipBlock edition false fuel depth chunk) bits (chunk ++ bits) := by
  induction h generalizing fuel chunk with
  | last =>
      cases fuel with
      | zero => simp at hfuel
      | succ fuel => exact Reads.bind_stay (reads_read rfl) (Reads.pure _)
  | close h ih =>
      cases fuel with
      | zero => simp at hfuel
      | succ fuel =>
          have hrest := ih fuel (by simp at hfuel; omega) (chunk ++ ['1', '1', '0'])
          rw [appendList_append]
          exact Reads.bind (reads_read rfl) hrest
  | @plain depth op operands bits hitem h ih =>
      obtain ⟨hlength, hinner, hclose⟩ := hitem.operation
      rw [List.length_append, hlength, List.length_append] at hfuel
      cases fuel with
      | zero => omega
      | succ fuel =>
          rw [skipBlock_succ, appendList_append, appendList_append]
          refine Reads.bind (reads_read hlength) ?_
          rw [if_neg hinner, if_neg hclose]
          exact Reads.bind (reads_skipOperands hitem) (ih fuel (by omega) _)
  | @inner depth head opens bits hitem h ih =>
      rw [List.length_append, List.length_append] at hfuel
      cases fuel with
      | zero => simp at hfuel
      | succ fuel =>
          rw [skipBlock_succ, appendList_append, appendList_append]
          refine Reads.bind (reads_read rfl) ?_
          exact Reads.bind (reads_skipHead hitem) (ih fuel (by simp at hfuel; omega) _)

theorem reads_fetchBody {bits : List Char} (h : Spans edition 1 bits) (spare : Nat) :
    Reads (fetchBody edition false spare) bits bits.toArray := by
  intro reader rest hplaced hrest
  have hlength := Reader.length_rest hplaced
  have hnonneg := hplaced.nonneg
  rw [hrest, List.length_append] at hlength
  have hbody := reads_skipBlock h (reader.cursor.text.size + 1 + spare) (by omega) #[]
    reader rest hplaced hrest
  change skipBlock edition false (reader.cursor.text.size + 1 + spare) 1 #[] reader = _
  rw [hbody]
  simp

/-! ## The first item of a derivation -/

theorem spans_plain_iff {depth : Nat} {op operands bits : List Char}
    (hitem : OperandsOf edition op operands) :
    Spans edition depth (op ++ (operands ++ bits)) ↔ Spans edition depth bits := by
  refine ⟨fun h => ?_, .plain hitem⟩
  obtain ⟨hlength, hinner, hclose⟩ := hitem.operation
  generalize htext : op ++ (operands ++ bits) = text at h
  cases h with
  | last => exact absurd (List.append_inj_left htext hlength) hclose
  | close h => exact absurd (List.append_inj_left htext hlength) hclose
  | inner hother h => exact absurd (List.append_inj_left htext hlength) hinner
  | plain hother h =>
      obtain ⟨rfl, hrest⟩ := List.append_inj htext (hlength.trans hother.operation.1.symm)
      obtain ⟨-, rfl, -⟩ :=
        (reads_skipOperands hitem).unique (reads_skipOperands hother) hrest
      exact h

theorem spans_inner_iff {depth : Nat} {head bits : List Char} {opens : Bool}
    (hitem : InnerHead edition head opens) :
    Spans edition depth (['1', '0', '1'] ++ (head ++ bits)) ↔
      Spans edition (if opens then depth + 1 else depth) bits := by
  refine ⟨fun h => ?_, .inner hitem⟩
  generalize htext : ['1', '0', '1'] ++ (head ++ bits) = text at h
  cases h with
  | last => simp at htext
  | close h => simp at htext
  | plain hother h =>
      obtain ⟨hlength, hinner, -⟩ := hother.operation
      exact absurd (List.append_inj_left htext hlength.symm).symm hinner
  | inner hother h =>
      obtain ⟨-, rfl, hvalue⟩ := (reads_skipHead hitem).unique (reads_skipHead hother)
        (List.append_inj_right htext rfl)
      rw [(Prod.mk.inj hvalue).2]
      exact h

theorem spans_close_iff {depth : Nat} {bits : List Char} :
    Spans edition (depth + 2) (['1', '1', '0'] ++ bits) ↔ Spans edition (depth + 1) bits := by
  refine ⟨fun h => ?_, .close⟩
  generalize htext : ['1', '1', '0'] ++ bits = text at h
  cases h with
  | close h =>
      rw [List.append_cancel_left htext]
      exact h
  | plain hother h =>
      obtain ⟨hlength, -, hclose⟩ := hother.operation
      exact absurd (List.append_inj_left htext hlength.symm).symm hclose
  | inner hother h => simp at htext

end BitAssembly.Machine
