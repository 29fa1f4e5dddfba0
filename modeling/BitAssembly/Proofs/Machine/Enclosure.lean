import BitAssembly.Proofs.Machine.Policies

/-!
# Running what was collected

A walk over a block counts the heads and the closing marks that it meets, while a run
fetches each block with its body and each instruction with its operands.  They
go over the same bits unless a definition is met, whose name a walk does not
expect.  So a body that was collected without one is never too short for a run:
the run finds a closing mark in it, or stops for a reason of its own.
-/

namespace BitAssembly.Machine

open BitAssembly.Bits
open BitAssembly.Text

variable {edition : Edition}

/-! ## Walks that meet no definition -/

/-- A walk over what is unread, with so many open blocks, comes to this inner head. -/
inductive Meets (edition : Edition) : Nat → Reader → List Char → Prop
  | here {depth : Nat} {reader middle after : Reader} {head : List Char} {opens : Bool}
      (hop : read 3 reader = .ok ['1', '0', '1'] middle)
      (hhead : skipHead edition middle = .ok (head, opens) after) :
      Meets edition depth reader head
  | inner {depth : Nat} {reader middle after : Reader} {head later : List Char} {opens : Bool}
      (hop : read 3 reader = .ok ['1', '0', '1'] middle)
      (hhead : skipHead edition middle = .ok (head, opens) after)
      (h : Meets edition (if opens then depth + 1 else depth) after later) :
      Meets edition depth reader later
  | close {depth : Nat} {reader after : Reader} {later : List Char}
      (hop : read 3 reader = .ok ['1', '1', '0'] after)
      (h : Meets edition (depth + 1) after later) :
      Meets edition (depth + 2) reader later
  | plain {depth : Nat} {reader middle after : Reader} {op operands later : List Char}
      (hop : read 3 reader = .ok op middle) (hinner : op ≠ ['1', '0', '1'])
      (hclose : op ≠ ['1', '1', '0'])
      (hoperands : skipOperands edition op middle = .ok operands after)
      (h : Meets edition depth after later) :
      Meets edition depth reader later

/-- The body was collected somewhere in a text of bits, and no definition was met on the way. -/
def Collected (edition : Edition) (body : Body) : Prop :=
  ∃ (tracing : Bool) (spare : Nat) (reader after : Reader), reader.Valid ∧
    fetchBody edition tracing spare reader = .ok body after ∧
    ¬ Meets edition 1 reader.plain ['0', '1', '0']

/-- Instructions up to a closing mark, each head that opens a block with a body of its own. -/
inductive Enclosed (edition : Edition) : List Char → Prop
  | close : Enclosed edition ['1', '1', '0']
  | plain {op operands bits : List Char} (hitem : OperandsOf edition op operands)
      (h : Enclosed edition bits) : Enclosed edition (op ++ (operands ++ bits))
  | head {head bits : List Char} (hitem : InnerHead edition head false)
      (h : Enclosed edition bits) : Enclosed edition (['1', '0', '1'] ++ (head ++ bits))
  | block {head body bits : List Char} (hitem : InnerHead edition head true)
      (hdefine : head ≠ ['0', '1', '0']) (hbody : Enclosed edition body)
      (h : Enclosed edition bits) :
      Enclosed edition (['1', '0', '1'] ++ (head ++ (body ++ bits)))

/-- The bodies of so many open blocks, one after the other. -/
inductive Row (edition : Edition) : Nat → List Char → Prop
  | nil : Row edition 0 []
  | cons {depth : Nat} {body bits : List Char} (hbody : Enclosed edition body)
      (h : Row edition depth bits) : Row edition (depth + 1) (body ++ bits)

theorem Enclosed.row {bits : List Char} (h : Enclosed edition bits) : Row edition 1 bits := by
  have hrow : Row edition 1 (bits ++ []) := .cons h .nil
  rwa [List.append_nil] at hrow

theorem Row.enclosed {bits : List Char} (h : Row edition 1 bits) : Enclosed edition bits := by
  cases h with
  | cons hbody h =>
      cases h
      rw [List.append_nil]
      exact hbody

theorem Row.inner {depth : Nat} {head bits : List Char} {opens : Bool}
    (hitem : InnerHead edition head opens) (hdefine : head ≠ ['0', '1', '0'])
    (h : Row edition (if opens then depth + 2 else depth + 1) bits) :
    Row edition (depth + 1) (['1', '0', '1'] ++ (head ++ bits)) := by
  cases opens with
  | false =>
      cases h with
      | cons hbody h =>
          have hrow := Row.cons (.head hitem hbody) h
          simpa using hrow
  | true =>
      cases h with
      | cons hbody h =>
          cases h with
          | cons hnext h =>
              have hrow := Row.cons (.block hitem hdefine hbody hnext) h
              simpa using hrow

theorem Row.plain {depth : Nat} {op operands bits : List Char}
    (hitem : OperandsOf edition op operands) (h : Row edition (depth + 1) bits) :
    Row edition (depth + 1) (op ++ (operands ++ bits)) := by
  cases h with
  | cons hbody h =>
      have hrow := Row.cons (.plain hitem hbody) h
      simpa using hrow

theorem Spans.row {depth : Nat} {bits later : List Char} (h : Spans edition (depth + 1) bits)
    {reader : Reader} (hplaced : reader.Placed) (hrest : reader.rest = bits ++ later)
    (hmeets : ¬ Meets edition (depth + 1) reader ['0', '1', '0']) :
    Row edition (depth + 1) bits := by
  generalize hopen : depth + 1 = opened at h hmeets
  induction h generalizing reader depth with
  | last => exact .cons .close .nil
  | close h ih =>
      have hop : Reads (read 3) ['1', '1', '0'] ['1', '1', '0'] := reads_read rfl
      rw [List.append_assoc] at hrest
      refine .cons .close (ih (hplaced.forward hrest) (Reader.rest_forward_append hplaced hrest)
        rfl fun hlater => ?_)
      exact hmeets (.close (hop reader _ hplaced hrest) hlater)
  | @plain _ op operands bits hitem h ih =>
      subst hopen
      obtain ⟨hlength, hinner, hclose⟩ := hitem.operation
      rw [List.append_assoc, List.append_assoc] at hrest
      have hmiddle := hplaced.forward hrest
      have hunread := Reader.rest_forward_append hplaced hrest
      refine .plain hitem (ih (hmiddle.forward hunread)
        (Reader.rest_forward_append hmiddle hunread) rfl fun hlater => ?_)
      exact hmeets (.plain (reads_read hlength reader _ hplaced hrest) hinner hclose
        (reads_skipOperands hitem _ _ hmiddle hunread) hlater)
  | @inner _ head opens bits hitem h ih =>
      subst hopen
      have hop : Reads (read 3) ['1', '0', '1'] ['1', '0', '1'] := reads_read rfl
      rw [List.append_assoc, List.append_assoc] at hrest
      have hmiddle := hplaced.forward hrest
      have hunread := Reader.rest_forward_append hplaced hrest
      have hread := hop reader _ hplaced hrest
      have hhead := reads_skipHead hitem _ _ hmiddle hunread
      have hdefine : head ≠ ['0', '1', '0'] := by
        rintro rfl
        exact hmeets (.here hread hhead)
      have hplaced := hmiddle.forward hunread
      have hrest := Reader.rest_forward_append hmiddle hunread
      refine .inner hitem hdefine ?_
      cases opens with
      | false => exact ih hplaced hrest rfl fun hlater => hmeets (.inner hread hhead hlater)
      | true => exact ih hplaced hrest rfl fun hlater => hmeets (.inner hread hhead hlater)

theorem Collected.enclosed {body : Body} (h : Collected edition body) :
    Enclosed edition body.toList := by
  obtain ⟨tracing, spare, reader, after, hvalid, hfetch, hmeets⟩ := h
  have htakes := @takesBits_fetchBody edition tracing spare reader hvalid.onBits
  rw [hfetch] at htakes
  obtain ⟨bits, hpassed, rfl, hspans⟩ := htakes
  exact (hspans.row hvalid.placed hpassed.rest hmeets).enclosed

theorem Row.read {depth : Nat} {bits later op : List Char} (h : Row edition (depth + 1) bits)
    {reader middle : Reader} (hplaced : reader.Placed) (hrest : reader.rest = bits ++ later)
    (hop : Machine.read 3 reader = .ok op middle) :
    middle.Placed ∧
      ((∃ rest, op = ['1', '1', '0'] ∧ middle.rest = rest ++ later ∧ Row edition depth rest) ∨
        (∃ operands rest, OperandsOf edition op operands ∧
          middle.rest = operands ++ (rest ++ later) ∧ Row edition (depth + 1) rest) ∨
        ∃ head opens rest, op = ['1', '0', '1'] ∧ InnerHead edition head opens ∧
          head ≠ ['0', '1', '0'] ∧ middle.rest = head ++ (rest ++ later) ∧
          Row edition (if opens then depth + 2 else depth + 1) rest) := by
  have hread {bits more : List Char} (hlength : bits.length = 3)
      (hrest : reader.rest = bits ++ more) :
      op = bits ∧ middle.Placed ∧ middle.rest = more := by
    cases (reads_read hlength reader more hplaced hrest).symm.trans hop
    exact ⟨rfl, hplaced.forward hrest, Reader.rest_forward_append hplaced hrest⟩
  cases h with
  | @cons _ _ bits hbody h =>
      cases hbody with
      | close =>
          rw [List.append_assoc] at hrest
          obtain ⟨rfl, hmiddle, hunread⟩ := hread rfl hrest
          exact ⟨hmiddle, .inl ⟨bits, rfl, hunread, h⟩⟩
      | plain hitem hbody =>
          simp only [List.append_assoc] at hrest
          obtain ⟨rfl, hmiddle, hunread⟩ := hread hitem.operation.1 hrest
          exact ⟨hmiddle, .inr (.inl ⟨_, _, hitem, by simp [hunread], .cons hbody h⟩)⟩
      | head hitem hbody =>
          simp only [List.append_assoc] at hrest
          obtain ⟨rfl, hmiddle, hunread⟩ := hread rfl hrest
          refine ⟨hmiddle, .inr (.inr ⟨_, false, _, rfl, hitem, ?_, by simp [hunread],
            .cons hbody h⟩)⟩
          -- A definition is taken to open a block.
          rintro rfl
          have hdefine : Reads (skipHead edition) ['0', '1', '0'] _ := reads_skipHead .define
          have hboth := (reads_skipHead hitem).unique hdefine (rfl : _ ++ [] = _)
          cases hboth.2.2
      | block hitem hdefine hbody hnext =>
          simp only [List.append_assoc] at hrest
          obtain ⟨rfl, hmiddle, hunread⟩ := hread rfl hrest
          exact ⟨hmiddle, .inr (.inr ⟨_, true, _, rfl, hitem, hdefine, by simp [hunread],
            .cons hbody (.cons hnext h)⟩)⟩

theorem Meets.ne_define {opened : Nat} {reader : Reader} {head : List Char}
    (h : Meets edition opened reader head) (hplaced : reader.Placed) {bits later : List Char}
    (hrest : reader.rest = bits ++ later) {depth : Nat} (hdepth : opened = depth + 1)
    (hrow : Row edition opened bits) : head ≠ ['0', '1', '0'] := by
  induction h generalizing bits depth with
  | here hop hhead =>
      subst hdepth
      obtain ⟨hmiddle, ⟨_, hmark, -⟩ | ⟨_, _, hitem, -⟩ |
        ⟨head, _, rest, -, hitem, hdefine, hunread, -⟩⟩ := hrow.read hplaced hrest hop
      · cases hmark
      · exact absurd rfl hitem.operation.2.1
      · rw [reads_skipHead hitem _ _ hmiddle hunread] at hhead
        cases hhead
        exact hdefine
  | @inner _ _ _ _ _ _ opens hop hhead h ih =>
      subst hdepth
      obtain ⟨hmiddle, ⟨_, hmark, -⟩ | ⟨_, _, hitem, -⟩ |
        ⟨head, _, rest, -, hitem, -, hunread, hrow⟩⟩ := hrow.read hplaced hrest hop
      · cases hmark
      · exact absurd rfl hitem.operation.2.1
      · rw [reads_skipHead hitem _ _ hmiddle hunread] at hhead
        cases hhead
        have hplaced := hmiddle.forward hunread
        have hrest := Reader.rest_forward_append hmiddle hunread
        cases opens with
        | false => exact ih hplaced hrest rfl hrow
        | true => exact ih hplaced hrest rfl hrow
  | close hop h ih =>
      obtain ⟨hmiddle, ⟨rest, -, hunread, hrow⟩ | ⟨_, _, hitem, -⟩ | ⟨_, _, _, hmark, -⟩⟩ :=
        hrow.read hplaced hrest hop
      · exact ih hmiddle hunread rfl hrow
      · exact absurd rfl hitem.operation.2.2
      · cases hmark
  | plain hop hinner hclose hoperands h ih =>
      subst hdepth
      obtain ⟨hmiddle, ⟨_, hmark, -⟩ | ⟨operands, rest, hitem, hunread, hrow⟩ |
        ⟨_, _, _, hmark, -⟩⟩ := hrow.read hplaced hrest hop
      · exact absurd hmark hclose
      · rw [reads_skipOperands hitem _ _ hmiddle hunread] at hoperands
        cases hoperands
        exact ih (hmiddle.forward hunread) (Reader.rest_forward_append hmiddle hunread) rfl hrow
      · exact absurd hmark hinner

theorem Enclosed.spans_append {bits : List Char} (h : Enclosed edition bits) :
    Spans edition 1 bits ∧ ∀ {depth : Nat} {more : List Char}, Spans edition (depth + 1) more →
      Spans edition (depth + 2) (bits ++ more) := by
  induction h with
  | close => exact ⟨.last, .close⟩
  | plain hitem _ ih =>
      refine ⟨.plain hitem ih.1, fun hmore => ?_⟩
      rw [List.append_assoc, List.append_assoc]
      exact .plain hitem (ih.2 hmore)
  | head hitem _ ih =>
      refine ⟨.inner hitem ih.1, fun hmore => ?_⟩
      rw [List.append_assoc, List.append_assoc]
      exact .inner hitem (ih.2 hmore)
  | block hitem _ _ _ ihbody ih =>
      refine ⟨.inner hitem (ihbody.2 ih.1), fun hmore => ?_⟩
      simp only [List.append_assoc]
      exact .inner hitem (ihbody.2 (ih.2 hmore))

theorem Enclosed.spans {bits : List Char} (h : Enclosed edition bits) : Spans edition 1 bits :=
  h.spans_append.1

/-- Of the bits that a walk can collect, those without a definition are the ones that enclose
their blocks. -/
theorem collected_iff {bits : List Char} (hbits : AllBits bits) :
    Collected edition bits.toArray ↔ Enclosed edition bits := by
  refine ⟨Collected.enclosed, fun h => ?_⟩
  have hplaced : (Reader.onto false bits).Placed := ⟨rfl, Int.le_refl 0, Int.natCast_nonneg _⟩
  have hrest : (Reader.onto false bits).rest = bits ++ [] := (List.append_nil bits).symm
  refine ⟨false, 0, .onto false bits, _, ⟨hbits, Int.le_refl 0, Int.natCast_nonneg _⟩,
    reads_fetchBody h.spans 0 _ _ hplaced hrest, fun hmeets => ?_⟩
  exact hmeets.ne_define hplaced hrest rfl h.row rfl

/-! ## Fetching without a lack of bits -/

theorem reads_bits {width : Nat} {bits : List Char} (hwidth : 0 < width) (hbits : AllBits bits)
    (hlength : bits.length = width) : Reads (operand width) bits (bitsValue bits) := by
  have hvalue := bitsValue_lt bits
  have hdigits := binaryDigits_bitsValue hbits
  rw [hlength] at hvalue hdigits
  have hreads := reads_operand width (bitsValue bits) hwidth hvalue
  rwa [hdigits] at hreads

def Fetches (policy : Policy) (action : Reading Instruction) (bits : List Char) : Prop :=
  ∃ instruction, Reads action bits instruction ∧ policy.Admits instruction

section

variable {policy : Policy}

theorem Fetches.bind {α : Type} {first : Reading α} {next : α → Reading Instruction}
    {bits more : List Char} {value : α} (hfirst : Reads first bits value)
    (hnext : Fetches policy (next value) more) :
    Fetches policy (first >>= next) (bits ++ more) := by
  obtain ⟨instruction, hreads, hadmits⟩ := hnext
  exact ⟨instruction, hfirst.bind hreads, hadmits⟩

theorem Fetches.last {width : Nat} {bits : List Char} {instruction : Int → Instruction}
    (hwidth : 0 < width) (hbits : AllBits bits) (hlength : bits.length = width)
    (hadmits : ∀ value, policy.Admits (instruction value)) :
    Fetches policy (do return instruction (← operand width)) bits :=
  ⟨_, (reads_bits hwidth hbits hlength).map _, hadmits _⟩

theorem Fetches.pure {instruction : Instruction} (hadmits : policy.Admits instruction) :
    Fetches policy (Pure.pure instruction) [] :=
  ⟨_, .pure _, hadmits⟩

theorem fetches_compute {mode bits : List Char} (hmode : mode.length = 3)
    (hload : mode ≠ ['1', '0', '1']) (hlength : bits.length = 8) (hmodeBits : AllBits mode)
    (hbits : AllBits bits) : Fetches policy (fetchArithmetic edition true) (mode ++ bits) := by
  obtain ⟨target, source, rfl, htarget, hsource⟩ := exists_append_of_length 4 4 hlength
  rw [allBits_append] at hbits
  have hvalue : (bitsValue mode : Int) ≠ 5 := by
    intro hfive
    have hdigits := binaryDigits_bitsValue hmodeBits
    rw [hmode, Int.ofNat_inj.mp hfive] at hdigits
    exact hload hdigits.symm
  refine .bind (reads_bits (by decide) hmodeBits hmode) ?_
  rw [if_neg hvalue]
  refine .bind (reads_bits (by decide) hbits.1 htarget) ?_
  exact .last (by decide) hbits.2 hsource fun _ => trivial

theorem fetches_wideLoad {target : Int} {width : Nat} {bits : List Char} (hwidth : width < 4)
    (hbits : AllBits bits) (hlength : bits.length = 8 * (width + 1)) :
    Fetches policy (fetchLoad .extended true target width) bits := by
  have himmediate : fetchImmediate .extended (width : Int) = operand (8 * (width + 1) : Nat) := by
    rw [fetchImmediate, if_pos (by omega)]
    rfl
  have hload : Fetches policy (do return .load target (← operand (8 * (width + 1) : Nat))) bits :=
    .last (by omega) hbits hlength fun _ => trivial
  rw [← himmediate] at hload
  exact hload

theorem pair_cases {mode : List Char} (hlength : mode.length = 2) (hbits : AllBits mode) :
    mode = ['0', '0'] ∨ mode = ['0', '1'] ∨ mode = ['1', '0'] ∨ mode = ['1', '1'] := by
  have hvalue := bitsValue_lt mode
  have hdigits := binaryDigits_bitsValue hbits
  rw [hlength] at hvalue hdigits
  rw [← hdigits]
  generalize bitsValue mode = value at hvalue
  revert value
  decide

theorem fetches_plain (spare : Nat) {op operands : List Char}
    (hitem : OperandsOf edition op operands) (hbits : AllBits operands) :
    Fetches policy (fetch edition false true spare) (op ++ operands) := by
  cases hitem with
  | pause => exact .bind (reads_read rfl) (.pure trivial)
  | alter _ hlength =>
      obtain ⟨mode, address, rfl, hmode, haddress⟩ := exists_append_of_length 3 4 hlength
      rw [allBits_append] at hbits
      refine .bind (reads_read rfl) (.bind (reads_bits (by decide) hbits.1 hmode) ?_)
      exact .last (by decide) hbits.2 haddress fun _ => trivial
  | selectPage _ hlength =>
      exact .bind (reads_read rfl) (.last (by decide) hbits hlength fun _ => trivial)
  | compute mode bits hmode hload hlength =>
      rw [allBits_append] at hbits
      exact .bind (reads_read rfl) (fetches_compute hmode hload hlength hbits.1 hbits.2)
  | load bits hedition hlength =>
      subst hedition
      obtain ⟨target, value, rfl, htarget, hvalue⟩ := exists_append_of_length 4 8 hlength
      simp only [allBits_append] at hbits
      refine .bind (reads_read rfl) (.bind (reads_operand 3 5 (by decide) (by decide)) ?_)
      refine .bind (reads_bits (by decide) hbits.2.1 htarget) ?_
      exact .last (by decide) hbits.2.2 hvalue fun _ => trivial
  | wideLoad width bits hedition hwidth hlength =>
      subst hedition
      obtain ⟨target, value, rfl, htarget, hvalue⟩ := exists_append_of_length _ _ hlength
      simp only [allBits_append] at hbits
      refine .bind (reads_read rfl) (.bind (reads_operand 3 5 (by decide) (by decide)) ?_)
      refine .bind (reads_operand 2 width (by decide) hwidth) ?_
      refine .bind (reads_bits (by decide) hbits.2.2.1 htarget) ?_
      exact fetches_wideLoad hwidth hbits.2.2.2 hvalue
  | display mode bits hmode hlength =>
      rw [allBits_append] at hbits
      refine .bind (reads_read rfl) (.bind (reads_operand 2 mode (by decide) (by omega)) ?_)
      rw [if_pos (by omega)]
      exact .last (by decide) hbits.2 hlength fun _ => trivial
  | displayValue bits hlength =>
      rw [allBits_append] at hbits
      refine .bind (reads_read rfl) (.bind (reads_operand 2 3 (by decide) (by decide)) ?_)
      exact .last (by decide) hbits.2 hlength fun _ => trivial
  | exit _ hmode hask =>
      refine .bind (reads_read rfl) ?_
      obtain rfl | rfl | rfl | rfl := pair_cases hmode hbits
      · exact .bind (reads_operand 2 0 (by decide) (by decide)) (.pure trivial)
      · exact .bind (reads_operand 2 1 (by decide) (by decide)) (.pure trivial)
      · exact absurd rfl hask.1
      · exact absurd rfl hask.2
  | ask mode bits hmode hlength =>
      rw [allBits_append] at hbits
      refine .bind (reads_read rfl) ?_
      obtain rfl | rfl := hmode
      · refine .bind (reads_operand 2 2 (by decide) (by decide)) ?_
        exact .last (by decide) hbits.2 hlength fun _ => trivial
      · refine .bind (reads_operand 2 3 (by decide) (by decide)) ?_
        exact .last (by decide) hbits.2 hlength fun _ => trivial

theorem exists_reads_bytes (count : Nat) (before : List UInt8) {bits : List Char}
    (hbits : AllBits bits) (hlength : bits.length = count * 8) :
    ∃ bytes, Reads (fetchBytes count before) bits bytes := by
  induction count generalizing before bits with
  | zero =>
      have hnil : bits = [] := List.length_eq_zero_iff.mp (by omega)
      rw [hnil]
      exact ⟨_, .pure _⟩
  | succ count ih =>
      obtain ⟨byte, rest, rfl, hbyte, hrest⟩ :=
        exists_append_of_length 8 (count * 8) (by omega : bits.length = 8 + count * 8)
      rw [allBits_append] at hbits
      obtain ⟨bytes, hbytes⟩ :=
        ih (UInt8.ofNat (bitsValue byte : Int).toNat :: before) hbits.2 hrest
      refine ⟨bytes, (reads_bits (by decide) hbits.1 hbyte).bind ?_⟩
      rw [if_neg (by omega)]
      exact hbytes

theorem fetches_head (spare : Nat) {head : List Char} (hitem : InnerHead edition head false)
    (hbits : AllBits head) :
    Fetches policy (fetch edition false true spare) (['1', '0', '1'] ++ head) := by
  refine .bind (reads_read rfl) ?_
  cases hitem with
  | named kind bits hkind hlength =>
      rw [allBits_append] at hbits
      obtain rfl | rfl := hkind
      · refine .bind (reads_operand 3 4 (by decide) (by decide)) ?_
        exact .last (by decide) hbits.2 hlength fun _ => trivial
      · refine .bind (reads_operand 3 3 (by decide) (by decide)) ?_
        exact .last (by decide) hbits.2 hlength fun _ => trivial
  | write size bits hedition hsize hlength =>
      subst hedition
      simp only [allBits_append] at hbits
      obtain ⟨bytes, hbytes⟩ := exists_reads_bytes size [] hbits.2.2 hlength
      refine .bind (reads_operand 3 7 (by decide) (by decide)) ?_
      refine .bind (reads_operand 16 size (by decide) hsize) ?_
      exact ⟨.write bytes, hbytes.map _, trivial⟩

theorem exists_reads_test {bits : List Char} (hbits : AllBits bits) (hlength : bits.length = 10) :
    ∃ test, Reads fetchTest bits test := by
  obtain ⟨left, rest, rfl, hleft, hrest⟩ := exists_append_of_length 4 6 hlength
  obtain ⟨comparison, right, rfl, hcomparison, hright⟩ := exists_append_of_length 2 4 hrest
  simp only [allBits_append] at hbits
  have hlast := (reads_bits (by decide) hbits.2.2 hright).map fun value : Int =>
    Test.mk (.ofCode (bitsValue comparison)) (bitsValue left) value
  exact ⟨_, (reads_bits (by decide) hbits.1 hleft).bind
    ((reads_bits (by decide) hbits.2.1 hcomparison).bind hlast)⟩

theorem fetches_count (spare : Nat) {bits body : List Char} {address : Int} {bound : Bound}
    (hbound : Reads (fetchBound true) bits (address, bound)) (hbody : Spans edition 1 body)
    (hplace : policy.place (.ofChars body.toArray)) :
    Fetches policy (fetch edition false true spare)
      (['1', '0', '1'] ++ (['1', '0', '1'] ++ (bits ++ body))) := by
  refine .bind (reads_read rfl) (.bind (reads_operand 3 5 (by decide) (by decide)) ?_)
  refine .bind hbound ?_
  exact ⟨.count address bound body.toArray, (reads_fetchBody hbody spare).map _, hplace⟩

theorem fetches_block (spare : Nat) {head body : List Char} (hitem : InnerHead edition head true)
    (hdefine : head ≠ ['0', '1', '0']) (hbits : AllBits head) (hbody : Spans edition 1 body)
    (hplace : policy.place (.ofChars body.toArray)) :
    Fetches policy (fetch edition false true spare) (['1', '0', '1'] ++ head) ∨
      Fetches policy (fetch edition false true spare) (['1', '0', '1'] ++ (head ++ body)) := by
  have hreads := reads_fetchBody hbody spare
  cases hitem with
  | test kind bits hkind hlength =>
      rw [allBits_append] at hbits
      obtain ⟨test, htest⟩ := exists_reads_test hbits.2 hlength
      rw [List.append_assoc]
      refine .inr (.bind (reads_read rfl) ?_)
      obtain rfl | rfl := hkind
      · refine .bind (reads_operand 3 0 (by decide) (by decide)) (.bind htest ?_)
        exact ⟨.onlyIf test body.toArray, hreads.map _, hplace⟩
      · refine .bind (reads_operand 3 6 (by decide) (by decide)) (.bind htest ?_)
        exact ⟨.whileTrue test body.toArray, hreads.map _, hplace⟩
  | count bits hlength =>
      obtain ⟨address, limit, rfl, haddress, hlimit⟩ := exists_append_of_length 4 8 hlength
      simp only [allBits_append] at hbits
      have hbound : Reads (fetchBound true) (['0'] ++ (address ++ limit))
          ((bitsValue address : Int), .fixed (bitsValue limit)) :=
        Reads.bind (reads_operand 1 0 (by decide) (by decide))
          (.bind (reads_bits (by decide) hbits.2.1 haddress)
            ((reads_bits (by decide) hbits.2.2 hlimit).map fun value => (_, Bound.fixed value)))
      exact .inr (fetches_count spare hbound hbody hplace)
  | countTo bits hlength =>
      obtain ⟨address, limit, rfl, haddress, hlimit⟩ := exists_append_of_length 4 4 hlength
      simp only [allBits_append] at hbits
      have hbound : Reads (fetchBound true) (['1'] ++ (address ++ limit))
          ((bitsValue address : Int), .register (bitsValue limit)) :=
        Reads.bind (reads_operand 1 1 (by decide) (by decide))
          (.bind (reads_bits (by decide) hbits.2.1 haddress)
            ((reads_bits (by decide) hbits.2.2 hlimit).map fun value => (_, Bound.register value)))
      exact .inr (fetches_count spare hbound hbody hplace)
  | times bits hlength =>
      rw [allBits_append] at hbits
      rw [List.append_assoc]
      refine .inr (.bind (reads_read rfl) ?_)
      refine .bind (reads_operand 3 1 (by decide) (by decide)) ?_
      refine .bind (reads_bits (by decide) hbits.2 hlength) ?_
      exact ⟨_, hreads.map _, hplace⟩
  | unassigned hedition =>
      subst hedition
      refine .inl (.bind (reads_read rfl) ?_)
      exact .bind (reads_operand 3 7 (by decide) (by decide)) (.pure trivial)
  | define => exact absurd rfl hdefine

end

/-! ## Runs on what was collected -/

/-- A run is where a body goes on up to its closing mark, and is not stopped by the end of a
text.  Only the text of an empty function has no such place. -/
def Policy.enclosing (edition : Edition) : Policy :=
  ⟨fun cursor => cursor.text = #[] ∨
      ∃ bits later, Enclosed edition bits ∧ cursor.rest = bits ++ later,
    fun body => body = #[] ∨ Enclosed edition body.toList,
    fun stop => stop ≠ .fault .endOfText⟩

theorem Enclosed.place {bits later : List Char} (h : Enclosed edition bits) {cursor : Cursor}
    (hrest : cursor.rest = bits ++ later) : (Policy.enclosing edition).place cursor :=
  .inr ⟨bits, later, h, hrest⟩

theorem Enclosed.place_ofChars {bits : List Char} (h : Enclosed edition bits) :
    (Policy.enclosing edition).place (.ofChars bits.toArray) :=
  h.place (List.append_nil bits).symm

theorem fetchNext_of_reads (tracing : Bool) {passes : Nat} {bits rest : List Char}
    {instruction : Instruction} (h : Reads (fetch edition false true passes) bits instruction)
    {session : Session} (hsound : session.Sound) (hrest : session.cursor.rest = bits ++ rest) :
    ∃ fetched, fetchNext edition tracing passes session = .ok instruction fetched ∧
      fetched.cursor.rest = rest := by
  have hvalid : session.reader.Valid := hsound.cursor
  have hlanding : landing (fetch edition tracing true passes session.reader) = _ :=
    (unnoticed_fetch tracing true passes).landing session.reader
  rw [h session.reader.plain rest hvalid.placed hrest] at hlanding
  obtain ⟨after, hafter, hcursor⟩ := exists_of_landing hlanding
  refine ⟨session.afterReading after, ?_, ?_⟩
  · change reading (fetch edition tracing session.memory.page?.isSome passes) session = _
    rw [Session.reader] at hafter
    rw [hsound.ready, reading, hafter]
  · change after.cursor.rest = rest
    rw [hcursor]
    exact Reader.rest_forward_append hvalid.placed hrest

theorem Enclosed.fetchNext (tracing : Bool) (passes : Nat) {bits later : List Char}
    (h : Enclosed edition bits) {session : Session} (hsound : session.Sound)
    (hrest : session.cursor.rest = bits ++ later) :
    ∃ instruction fetched, Machine.fetchNext edition tracing passes session =
      .ok instruction fetched ∧ (Policy.enclosing edition).Admits instruction ∧
      (instruction ≠ .close → (Policy.enclosing edition).place fetched.cursor) := by
  have hvalid : session.reader.Valid := hsound.cursor
  have hbits : AllBits session.cursor.rest := hvalid.onBits.bits
  rw [hrest] at hbits
  cases h with
  | close =>
      have hclose : Reads (fetch edition false true passes) ['1', '1', '0'] .close :=
        Reads.bind_stay (reads_read rfl) (.pure _)
      obtain ⟨fetched, hfetch, -⟩ := fetchNext_of_reads tracing hclose hsound hrest
      exact ⟨_, fetched, hfetch, trivial, fun h => absurd rfl h⟩
  | plain hitem h =>
      simp only [allBits_append] at hbits
      rw [List.append_assoc, List.append_assoc, ← List.append_assoc] at hrest
      obtain ⟨instruction, hreads, hadmits⟩ := fetches_plain passes hitem hbits.1.2.1
      obtain ⟨fetched, hfetch, hunread⟩ := fetchNext_of_reads tracing hreads hsound hrest
      exact ⟨_, fetched, hfetch, hadmits, fun _ => h.place hunread⟩
  | head hitem h =>
      simp only [allBits_append] at hbits
      rw [List.append_assoc, List.append_assoc, ← List.append_assoc] at hrest
      obtain ⟨instruction, hreads, hadmits⟩ := fetches_head passes hitem hbits.1.2.1
      obtain ⟨fetched, hfetch, hunread⟩ := fetchNext_of_reads tracing hreads hsound hrest
      exact ⟨_, fetched, hfetch, hadmits, fun _ => h.place hunread⟩
  | @block head body bits hitem hdefine hbody h =>
      simp only [allBits_append] at hbits
      obtain ⟨instruction, hreads, hadmits⟩ | ⟨instruction, hreads, hadmits⟩ :=
        fetches_block passes hitem hdefine hbits.1.2.1 hbody.spans hbody.place_ofChars
      · -- The run goes on in the body that a walk has seen here.
        have hrest : session.cursor.rest =
            (['1', '0', '1'] ++ head) ++ (body ++ (bits ++ later)) := by simpa using hrest
        obtain ⟨fetched, hfetch, hunread⟩ := fetchNext_of_reads tracing hreads hsound hrest
        exact ⟨_, fetched, hfetch, hadmits, fun _ => hbody.place hunread⟩
      · have hrest : session.cursor.rest =
            (['1', '0', '1'] ++ (head ++ body)) ++ (bits ++ later) := by simpa using hrest
        obtain ⟨fetched, hfetch, hunread⟩ := fetchNext_of_reads tracing hreads hsound hrest
        exact ⟨_, fetched, hfetch, hadmits, fun _ => h.place hunread⟩

theorem Policy.lawful_enclosing : (Policy.enclosing edition).Lawful edition := by
  refine ⟨.inl rfl, ?_, fun h => h, ?_⟩
  · rintro body (rfl | hbody)
    · exact .inl rfl
    · exact hbody.place_ofChars
  · intro tracing passes session hsound hplace hmore
    obtain hempty | ⟨bits, later, hbits, hrest⟩ := hplace
    · rw [Cursor.atEnd, hempty] at hmore
      exact absurd (decide_eq_true hsound.cursor.nonneg) hmore
    · obtain ⟨instruction, fetched, hfetch, hnext⟩ :=
        hbits.fetchNext tracing passes hsound hrest
      rw [hfetch]
      exact hnext

theorem Collected.allBits {body : Body} (h : Collected edition body) : AllBits body.toList := by
  obtain ⟨tracing, spare, reader, after, hvalid, hfetch, -⟩ := h
  have htakes := @takesBits_fetchBody edition tracing spare reader hvalid.onBits
  rw [hfetch] at htakes
  obtain ⟨bits, hpassed, rfl, -⟩ := htakes
  have hbits := hvalid.onBits.bits
  rw [hpassed.rest, allBits_append] at hbits
  exact hbits.1

theorem Enclosed.ne_nil {bits : List Char} (h : Enclosed edition bits) : bits ≠ [] := by
  obtain ⟨front, rfl⟩ := h.spans.marked
  simp

theorem Policy.Ends.closed {body : Body} {ended : TextEnd} {after : Session}
    (hbody : Enclosed edition body.toList)
    (h : (Policy.enclosing edition).Ends body (.ok ended after)) :
    ended = .closed ∧ after.cursor.text = body ∧ BehindMark after.cursor := by
  cases ended with
  | closed => exact ⟨rfl, h.2⟩
  | exhausted =>
      obtain ⟨hholds, htext, hplace, hend⟩ := h
      obtain hempty | ⟨bits, later, hbits, hrest⟩ := hplace
      · rw [htext] at hempty
        subst hempty
        exact absurd rfl hbody.ne_nil
      · rw [(after.cursor.atEnd_iff hholds.sound.cursor.nonneg).mp hend] at hrest
        exact absurd (List.append_eq_nil_iff.mp hrest.symm).1 hbits.ne_nil

/-- A run on a body that was collected without a definition, of a machine whose functions were,
is never stopped by the end of a text, and if it returns it has met a closing mark. -/
theorem execute_collected (edition : Edition) (limits : Limits) (tracing : Bool) (session : Session)
    (hreached : Reached edition session)
    (hfunctions : ∀ entry ∈ session.memory.functions, entry.2 = #[] ∨ Collected edition entry.2)
    (body : Body) (hbody : Collected edition body) (input : List Char) :
    let start := (session.fed input).onto body.toList
    (∀ after, execute edition limits tracing start ≠ .error (.fault .endOfText) after) ∧
      (∀ moment after, Moment.Comes edition limits.passes ⟨start, tracing, limits.depth⟩ moment →
        0 < moment.levels → ¬ moment.session.cursor.atEnd →
        fetchNext edition moment.tracing limits.passes moment.session ≠
          .error (.fault .endOfText) after) ∧
      ∀ after, execute edition limits tracing start = .ok () after →
        finish edition limits tracing start = .ok .closed after ∧
        after.cursor.text = body ∧ BehindMark after.cursor := by
  intro start
  have hholds : (Policy.enclosing edition).Holds start := by
    refine ⟨hreached.sound.fed_onto input hbody.allBits, fun entry hentry => ?_⟩
    exact (hfunctions entry hentry).imp_right Collected.enclosed
  have hplace : (Policy.enclosing edition).place start.cursor := hbody.enclosed.place_ofChars
  have hrun : ∀ after, execute edition limits tracing start ≠ .error (.fault .endOfText) after := by
    intro after herror
    have houtcome := Policy.lawful_enclosing.concludes_execute limits tracing hholds hplace
    rw [herror] at houtcome
    exact houtcome.2 rfl
  refine ⟨hrun, fun moment after hcomes hlevel hmore hfetch => ?_, fun after hok => ?_⟩
  · have hcause : Moment.Cause edition limits.passes ⟨start, tracing, limits.depth⟩ _ :=
      .endOfText hcomes hlevel hmore hfetch
    obtain ⟨last, hlast⟩ := hcause.run_error hholds.sound
    exact hrun last hlast
  · have hends := Policy.lawful_enclosing.ends_finish limits tracing hholds hplace
    rw [execute_apply] at hok
    cases hfinish : finish edition limits tracing start with
    | error stop last =>
        rw [hfinish] at hok
        cases hok
    | ok ended last =>
        rw [hfinish] at hok hends
        cases hok
        obtain ⟨rfl, hclosed⟩ := hends.closed hbody.enclosed
        exact ⟨rfl, hclosed⟩

/-- A function is called from within a kind of block that is not assigned.  The run takes its
closing mark for the one of the whole body. -/
theorem execute_collected_call :
    let stored := "1010000000000000000110110".toList
    let code := "1010100001".toList ++ stored
    let session := sessionAfter (execute .basic ⟨5, 9⟩ false (.start code false []))
    let body := "1011111011000001110110".toList.toArray
    let start := (session.fed []).onto body.toList
    Reached .basic session ∧ session.memory.functions = [(1, stored.toArray)] ∧
      Collected .basic stored.toArray ∧ Collected .basic body ∧
      ∃ after, execute .basic ⟨5, 9⟩ false start = .ok () after ∧
        finish .basic ⟨5, 9⟩ false start = .ok .closed after ∧ after.cursor.text = body ∧
        BehindMark after.cursor := by
  intro stored code session body start
  have hcode : AllBits code := by
    have hall : code.all isBit := by decide +kernel
    exact List.all_eq_true.mp hall
  have hreached : Reached .basic session := .run (.start hcode false []) ⟨5, 9⟩ false
  have hknown : session.memory.functions = [(1, stored.toArray)] := by decide +kernel
  have hstored : Collected .basic stored.toArray := by
    refine (collected_iff fun c hc => hcode c (List.mem_append_right _ hc)).mpr ?_
    have hinner : Enclosed .basic ['0', '0', '0', '1', '1', '0'] := .plain .pause .close
    have htest : InnerHead .basic (['0', '0', '0'] ++ "0000000000".toList) true :=
      .test ['0', '0', '0'] "0000000000".toList (.inl rfl) rfl
    exact .block htest (by decide) hinner .close
  have hbody : Collected .basic body := by
    have hbits : AllBits body.toList := by
      have hall : body.toList.all isBit := by decide +kernel
      exact List.all_eq_true.mp hall
    refine (collected_iff hbits).mpr ?_
    have hcall : InnerHead .basic ['1', '0', '0', '0', '0', '0', '1'] false :=
      .named ['1', '0', '0'] ['0', '0', '0', '1'] (.inl rfl) rfl
    exact .block (.unassigned rfl) (by decide) (.head hcall .close) .close
  have hfunctions : ∀ entry ∈ session.memory.functions,
      entry.2 = #[] ∨ Collected .basic entry.2 := by
    rw [hknown]
    intro entry hentry
    rw [List.mem_singleton.mp hentry]
    exact .inr hstored
  obtain ⟨-, -, hclosed⟩ :=
    execute_collected .basic ⟨5, 9⟩ false session hreached hfunctions body hbody []
  have hreturns : stop? (execute .basic ⟨5, 9⟩ false start) = none := by decide +kernel
  cases hrun : execute .basic ⟨5, 9⟩ false start with
  | ok value after => exact ⟨hreached, hknown, hstored, hbody, after, rfl, hclosed after hrun⟩
  | error stop after =>
      rw [hrun] at hreturns
      cases hreturns

end BitAssembly.Machine
