import BitAssembly.Proofs.Structured.Passing

/-!
# Fetching a structured program

The instruction that a plain instruction or a block denotes is what is fetched
from its bits.
-/

namespace BitAssembly.Structured

open BitAssembly.Machine
open BitAssembly.Text

variable {edition : Edition}

def Change.alteration : Change → Alteration
  | .increment => .increment
  | .decrement => .decrement
  | .clear => .clear
  | .restore => .restore
  | .push => .push
  | .pop => .pop

def Operation.arithmetic : Operation → Arithmetic
  | .add => .add
  | .subtract => .subtract
  | .multiply => .multiply
  | .divide => .divide
  | .copy => .copy
  | .power => .power
  | .root => .root

def Form.format : Form → Format
  | .character => .character
  | .decimal => .decimal
  | .hexadecimal => .hexadecimal

def Relation.comparison : Relation → Comparison
  | .equal => .equal
  | .atMost => .atMost
  | .atLeast => .atLeast
  | .differ => .differ

def Condition.test (condition : Condition) : Test :=
  ⟨condition.relation.comparison, (condition.left : Nat), (condition.right : Nat)⟩

def Plain.instruction : Plain → Instruction
  | .pause => .pause
  | .alter change register => .alter change.alteration (register : Nat)
  | .selectPage page => .selectPage (page : Nat)
  | .compute operation target source => .compute operation.arithmetic (target : Nat) (source : Nat)
  | .load _ target value => .load (target : Nat) value.toNat
  | .display form register => .display form.format (register : Nat)
  | .displayByte byte => .displayValue .character byte.toNat
  | .undefine name => .undefine (name : Nat)
  | .call name => .call (name : Nat)
  | .write bytes _ => .write bytes
  | .exit failed => .exit failed.toNat
  | .ask decimal register => .ask (if decimal then 10 else 16) (register : Nat)

def Head.instruction (body : Body) : Head → Instruction
  | .onlyIf condition => .onlyIf condition.test body
  | .whileTrue condition => .whileTrue condition.test body
  | .times register => .times (register : Nat) body
  | .count register passes => .count (register : Nat) (.fixed passes.toNat) body
  | .countTo register limit => .count (register : Nat) (.register (limit : Nat)) body
  | .define name => .define (name : Nat) body

/-! ## Fields -/

theorem reads_register (register : Fin 16) :
    Reads (operand 4) (binaryDigits 4 register) ((register : Nat) : Int) :=
  reads_operand 4 register (by decide) register.isLt

theorem reads_page (page : Fin 8) :
    Reads (operand 3) (binaryDigits 3 page) ((page : Nat) : Int) :=
  reads_operand 3 page (by decide) page.isLt

theorem reads_byte (byte : UInt8) :
    Reads (operand 8) (binaryDigits 8 byte.toNat) (byte.toNat : Int) :=
  reads_operand 8 byte.toNat (by decide) byte.toNat_lt

theorem reads_test (condition : Condition) :
    Reads fetchTest condition.fields condition.test := by
  have hcode : condition.relation.code < 2 ^ 2 := by cases condition.relation <;> decide
  have hcomparison :
      Comparison.ofCode condition.relation.code = condition.relation.comparison := by
    cases condition.relation <;> rfl
  refine (reads_register condition.left).bind ?_
  refine (reads_operand 2 _ (by decide) hcode).bind ?_
  rw [Condition.test, ← hcomparison]
  exact (reads_register condition.right).map _

theorem reads_bytes (bytes before : List UInt8) :
    Reads (fetchBytes bytes.length before) (bytes.flatMap fun byte => binaryDigits 8 byte.toNat)
      (before.reverse ++ bytes) := by
  induction bytes generalizing before with
  | nil =>
      rw [List.append_nil]
      exact Reads.pure before.reverse
  | cons byte bytes ih =>
      have hbyte : UInt8.ofNat (byte.toNat : Int).toNat = byte := by simp
      rw [List.flatMap_cons]
      refine (reads_byte byte).bind ?_
      rw [if_neg (by omega), hbyte]
      simpa using ih (byte :: before)

/-! ## Instructions -/

theorem reads_load {width : Fin 4} {target : Register} {value : BitVec (8 * (width.val + 1))}
    (hfits : (Plain.load width target value).fits edition) :
    Reads (fetchArithmetic edition true) ((Plain.load width target value).fields edition)
      (.load (target : Nat) value.toNat) := by
  have hmode : Reads (operand 3) ['1', '0', '1'] (5 : Nat) :=
    reads_operand 3 5 (by decide) (by decide)
  have hvalue := reads_operand (8 * (width.val + 1)) value.toNat (by omega) value.isLt
  refine hmode.bind ?_
  cases edition with
  | basic =>
      have hwidth : width = 0 := by simpa [Plain.fits] using hfits
      subst hwidth
      exact (reads_register target).bind (hvalue.map fun answer => Instruction.load _ answer)
  | extended =>
      have himmediate : fetchImmediate .extended (width.val : Int) =
          operand (8 * (width.val + 1) : Nat) := by
        have hlt := width.isLt
        rw [fetchImmediate, if_pos (by omega)]
        rfl
      refine (reads_operand 2 width (by decide) width.isLt).bind ?_
      refine (reads_register target).bind ?_
      have hload := hvalue.map fun answer => Instruction.load ((target : Nat) : Int) answer
      rw [← himmediate] at hload
      exact hload

theorem reads_compute (operation : Operation) (target source : Register) :
    Reads (fetchArithmetic edition true)
      ((Plain.compute operation target source).fields edition)
      (.compute operation.arithmetic (target : Nat) (source : Nat)) := by
  have hcode : operation.code < 2 ^ 3 := by cases operation <;> decide
  have hload : ((operation.code : Nat) : Int) ≠ 5 := by cases operation <;> decide
  have harithmetic : Arithmetic.ofCode operation.code = operation.arithmetic := by
    cases operation <;> rfl
  refine (reads_operand 3 _ (by decide) hcode).bind ?_
  rw [if_neg hload, harithmetic]
  exact (reads_register target).bind ((reads_register source).map _)

theorem reads_display (form : Form) (register : Register) :
    Reads fetchDisplay ((Plain.display form register).fields edition)
      (.display form.format (register : Nat)) := by
  have hcode : form.code < 3 := by cases form <;> decide
  have hformat : Format.ofCode form.code = form.format := by cases form <;> rfl
  refine (reads_operand 2 _ (by decide) (by omega)).bind ?_
  rw [if_pos (by omega), hformat]
  exact (reads_register register).map _

theorem reads_fetch_write {bytes : List UInt8} (fits : bytes.length < 2 ^ 16) (ready : Bool)
    (spare : Nat) :
    Reads (fetch .extended false ready spare)
      ((Plain.write bytes fits).operation ++ (Plain.write bytes fits).fields .extended)
      (.write bytes) := by
  have hkind : Reads (operand 3) ['1', '1', '1'] (7 : Nat) :=
    reads_operand 3 7 (by decide) (by decide)
  have hsize := reads_operand 16 bytes.length (by decide) fits
  exact Reads.bind (reads_read rfl) (hkind.bind (hsize.bind ((reads_bytes bytes []).map _)))

theorem reads_fetch_plain {instruction : Plain} (hfits : instruction.fits edition) (spare : Nat) :
    Reads (fetch edition false true spare) (instruction.operation ++ instruction.fields edition)
      instruction.instruction := by
  cases instruction with
  | pause => exact Reads.bind_stay (reads_read rfl) (Reads.pure _)
  | alter change register =>
      have hcode : change.code < 2 ^ 3 := by cases change <;> decide
      have halteration : Alteration.ofCode change.code = change.alteration := by
        cases change <;> rfl
      refine Reads.bind (reads_read rfl) ?_
      refine (reads_operand 3 _ (by decide) hcode).bind ?_
      rw [Plain.instruction, ← halteration]
      exact (reads_register register).map _
  | selectPage page => exact Reads.bind (reads_read rfl) ((reads_page page).map _)
  | compute operation target source =>
      exact Reads.bind (reads_read rfl) (reads_compute operation target source)
  | load width target value => exact Reads.bind (reads_read rfl) (reads_load hfits)
  | display form register => exact Reads.bind (reads_read rfl) (reads_display form register)
  | displayByte byte =>
      have hmode : Reads (operand 2) ['1', '1'] (3 : Nat) :=
        reads_operand 2 3 (by decide) (by decide)
      exact Reads.bind (reads_read rfl) (hmode.bind ((reads_byte byte).map _))
  | undefine name =>
      have hkind : Reads (operand 3) ['0', '1', '1'] (3 : Nat) :=
        reads_operand 3 3 (by decide) (by decide)
      exact Reads.bind (reads_read rfl) (hkind.bind ((reads_register name).map _))
  | call name =>
      have hkind : Reads (operand 3) ['1', '0', '0'] (4 : Nat) :=
        reads_operand 3 4 (by decide) (by decide)
      exact Reads.bind (reads_read rfl) (hkind.bind ((reads_register name).map _))
  | write bytes fits =>
      have hedition : edition = .extended := by simpa [Plain.fits] using hfits
      subst hedition
      exact reads_fetch_write fits true spare
  | exit failed =>
      refine Reads.bind (reads_read rfl) ?_
      cases failed with
      | false =>
          have hcode : Reads (operand 2) ['0', '0'] (0 : Nat) :=
            reads_operand 2 0 (by decide) (by decide)
          exact hcode.bind_stay (Reads.pure _)
      | true =>
          have hcode : Reads (operand 2) ['0', '1'] (1 : Nat) :=
            reads_operand 2 1 (by decide) (by decide)
          exact hcode.bind_stay (Reads.pure _)
  | ask decimal register =>
      refine Reads.bind (reads_read rfl) ?_
      cases decimal with
      | false =>
          have hcode : Reads (operand 2) ['1', '0'] (2 : Nat) :=
            reads_operand 2 2 (by decide) (by decide)
          exact hcode.bind ((reads_register register).map _)
      | true =>
          have hcode : Reads (operand 2) ['1', '1'] (3 : Nat) :=
            reads_operand 2 3 (by decide) (by decide)
          exact hcode.bind ((reads_register register).map _)

theorem reads_bound (register : Register) (passes : UInt8) :
    Reads (fetchBound true) (['0'] ++ (binaryDigits 4 register ++ binaryDigits 8 passes.toNat))
      (((register : Nat) : Int), .fixed passes.toNat) := by
  have hmode : Reads (operand 1) ['0'] (0 : Nat) := reads_operand 1 0 (by decide) (by decide)
  exact hmode.bind ((reads_register register).bind ((reads_byte passes).map _))

theorem reads_registerBound (register limit : Register) :
    Reads (fetchBound true) (['1'] ++ (binaryDigits 4 register ++ binaryDigits 4 limit))
      (((register : Nat) : Int), .register ((limit : Nat) : Int)) := by
  have hmode : Reads (operand 1) ['1'] (1 : Nat) := reads_operand 1 1 (by decide) (by decide)
  have hready : Reads (require true) [] () := Reads.pure ()
  refine hmode.bind ((reads_register register).bind ?_)
  exact (reads_register limit).bind_stay (hready.bind_nil (Reads.pure _))

theorem reads_fetch_block (head : Head) {body : List Char} (hbody : Spans edition 1 body)
    (spare : Nat) :
    Reads (fetch edition false true spare) (['1', '0', '1'] ++ (head.fields ++ body))
      (head.instruction body.toArray) := by
  have hfetch := reads_fetchBody hbody spare
  refine Reads.bind (reads_read rfl) ?_
  cases head with
  | onlyIf condition =>
      have hkind : Reads (operand 3) ['0', '0', '0'] (0 : Nat) :=
        reads_operand 3 0 (by decide) (by decide)
      exact hkind.bind ((reads_test condition).bind (hfetch.map _))
  | whileTrue condition =>
      have hkind : Reads (operand 3) ['1', '1', '0'] (6 : Nat) :=
        reads_operand 3 6 (by decide) (by decide)
      exact hkind.bind ((reads_test condition).bind (hfetch.map _))
  | times register =>
      have hkind : Reads (operand 3) ['0', '0', '1'] (1 : Nat) :=
        reads_operand 3 1 (by decide) (by decide)
      have hready : Reads (require true) [] () := Reads.pure ()
      exact hkind.bind ((reads_register register).bind (hready.bind_nil (hfetch.map _)))
  | count register passes =>
      have hkind : Reads (operand 3) ['1', '0', '1'] (5 : Nat) :=
        reads_operand 3 5 (by decide) (by decide)
      exact hkind.bind ((reads_bound register passes).bind (hfetch.map _))
  | countTo register limit =>
      have hkind : Reads (operand 3) ['1', '0', '1'] (5 : Nat) :=
        reads_operand 3 5 (by decide) (by decide)
      exact hkind.bind ((reads_registerBound register limit).bind (hfetch.map _))
  | define name =>
      have hkind : Reads (operand 3) ['0', '1', '0'] (2 : Nat) :=
        reads_operand 3 2 (by decide) (by decide)
      exact hkind.bind ((reads_register name).bind (hfetch.map _))

theorem reads_fetch_close (spare : Nat) :
    Reads (fetch edition false true spare) ['1', '1', '0'] .close :=
  Reads.bind_stay (reads_read rfl) (Reads.pure _)

end BitAssembly.Structured
