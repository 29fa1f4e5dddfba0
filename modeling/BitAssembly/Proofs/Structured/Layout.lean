import BitAssembly.Proofs.Machine.Skipping
import BitAssembly.Proofs.Structured.Program

/-!
# The layout of instructions in bits

The codes of an instruction's tokens, put in a row, are a three-bit operation
followed by binary fields.  From the layout follows how a block of such
instructions is passed over.
-/

namespace BitAssembly.Structured

open BitAssembly.Machine
open BitAssembly.Source
open BitAssembly.Text

variable {edition : Edition}

/-! ## Codes of tokens -/

def Change.code : Change → Nat
  | .increment => 0
  | .decrement => 1
  | .clear => 2
  | .restore => 3
  | .push => 4
  | .pop => 5

def Operation.code : Operation → Nat
  | .add => 0
  | .subtract => 1
  | .multiply => 2
  | .divide => 3
  | .copy => 4
  | .power => 6
  | .root => 7

def Form.code : Form → Nat
  | .character => 0
  | .decimal => 1
  | .hexadecimal => 2

def Relation.code : Relation → Nat
  | .equal => 0
  | .atMost => 1
  | .atLeast => 2
  | .differ => 3

def fixedCodes : List (Token × List Char) :=
  [("NOP".toList, ['0', '0', '0']), ("DPI".toList, ['1', '0', '0', '1', '1']),
   ("UDF".toList, ['1', '0', '1', '0', '1', '1']), ("CLL".toList, ['1', '0', '1', '1', '0', '0']),
   ("IF".toList, ['1', '0', '1', '0', '0', '0']), ("WHL".toList, ['1', '0', '1', '1', '1', '0']),
   ("REP".toList, ['1', '0', '1', '0', '0', '1']), ("DEF".toList, ['1', '0', '1', '0', '1', '0']),
   ("FOR".toList, ['1', '0', '1', '1', '0', '1', '0']),
   ("VFR".toList, ['1', '0', '1', '1', '0', '1', '1']), (closeToken, ['1', '1', '0'])]

def digitCodes : List (Token × List Char) :=
  (List.finRange 16).map fun value : Fin 16 => ([Nat.digitChar value], binaryDigits 4 value)

def pageCodes : List (Token × List Char) :=
  (List.finRange 8).map fun page => (pageMnemonic page, ['0', '1', '0'] ++ binaryDigits 3 page)

def changeCodes : List (Token × List Char) :=
  [.increment, .decrement, .clear, .restore, .push, .pop].map fun change : Change =>
    (change.mnemonic, ['0', '0', '1'] ++ binaryDigits 3 change.code)

def operationCodes : List (Token × List Char) :=
  [.add, .subtract, .multiply, .divide, .copy, .power, .root].map fun operation : Operation =>
    (operation.mnemonic, ['0', '1', '1'] ++ binaryDigits 3 operation.code)

def formCodes : List (Token × List Char) :=
  [.character, .decimal, .hexadecimal].map fun form : Form =>
    (form.mnemonic, ['1', '0', '0'] ++ binaryDigits 2 form.code)

def relationCodes : List (Token × List Char) :=
  [.equal, .atMost, .atLeast, .differ].map fun relation : Relation =>
    (relation.sign, binaryDigits 2 relation.code)

def systemCodes (edition : Edition) : List (Token × List Char) :=
  ([false, true].map fun failed =>
    (exitMnemonic edition failed, ['1', '1', '1'] ++ ['0', bitChar failed.toNat])) ++
  [false, true].map fun decimal =>
    (askMnemonic decimal, ['1', '1', '1'] ++ ['1', bitChar decimal.toNat])

def ownCodes : Edition → List (Token × List Char)
  | .basic => [("LDI".toList, ['0', '1', '1'] ++ ['1', '0', '1'])]
  | .extended => ("DPM".toList, ['1', '0', '1', '1', '1', '1']) ::
      (List.finRange 4).map fun width =>
        (loadMnemonic width, ['0', '1', '1'] ++ (['1', '0', '1'] ++ binaryDigits 2 width))

def laidOutCodes (edition : Edition) : List (List (Token × List Char)) :=
  [fixedCodes, digitCodes, pageCodes, changeCodes, operationCodes, formCodes, relationCodes,
    systemCodes edition, ownCodes edition]

theorem code?_laidOut (codes : List (Token × List Char)) (hcodes : codes ∈ laidOutCodes edition)
    {token : Token} {code : List Char} (h : (token, code) ∈ codes) :
    code? edition token = some code := by
  have hall : ∀ edition ∈ [Edition.basic, .extended], (laidOutCodes edition).all fun codes =>
      codes.all fun entry => code? edition entry.1 = some entry.2 := by decide +kernel
  have hedition : edition ∈ [Edition.basic, .extended] := by cases edition <;> decide
  have hentries := List.all_eq_true.mp (hall edition hedition) codes hcodes
  exact of_decide_eq_true (List.all_eq_true.mp hentries (token, code) h)

theorem code?_digitToken (value : Nat) :
    code? edition (digitToken value) = some (binaryDigits 4 value) := by
  have hdigit : (digitToken value, binaryDigits 4 (value % 16)) ∈ digitCodes :=
    List.mem_map.mpr ⟨Fin.ofNat 16 value, List.mem_finRange _, rfl⟩
  rw [← binaryDigits_mod]
  exact code?_laidOut digitCodes (by simp [laidOutCodes]) hdigit

theorem code?_page (page : Fin 8) :
    code? edition (pageMnemonic page) = some (['0', '1', '0'] ++ binaryDigits 3 page) :=
  code?_laidOut pageCodes (by simp [laidOutCodes])
    (List.mem_map.mpr ⟨page, List.mem_finRange page, rfl⟩)

theorem code?_change (change : Change) :
    code? edition change.mnemonic = some (['0', '0', '1'] ++ binaryDigits 3 change.code) :=
  code?_laidOut changeCodes (by simp [laidOutCodes])
    (List.mem_map.mpr ⟨change, by cases change <;> decide, rfl⟩)

theorem code?_operation (operation : Operation) :
    code? edition operation.mnemonic = some (['0', '1', '1'] ++ binaryDigits 3 operation.code) :=
  code?_laidOut operationCodes (by simp [laidOutCodes])
    (List.mem_map.mpr ⟨operation, by cases operation <;> decide, rfl⟩)

theorem code?_form (form : Form) :
    code? edition form.mnemonic = some (['1', '0', '0'] ++ binaryDigits 2 form.code) :=
  code?_laidOut formCodes (by simp [laidOutCodes])
    (List.mem_map.mpr ⟨form, by cases form <;> decide, rfl⟩)

theorem code?_relation (relation : Relation) :
    code? edition relation.sign = some (binaryDigits 2 relation.code) :=
  code?_laidOut relationCodes (by simp [laidOutCodes])
    (List.mem_map.mpr ⟨relation, by cases relation <;> decide, rfl⟩)

theorem code?_exit (failed : Bool) :
    code? edition (exitMnemonic edition failed) =
      some (['1', '1', '1'] ++ ['0', bitChar failed.toNat]) :=
  code?_laidOut (systemCodes edition) (by simp [laidOutCodes])
    (List.mem_append_left _ (List.mem_map.mpr ⟨failed, by cases failed <;> decide, rfl⟩))

theorem code?_ask (decimal : Bool) :
    code? edition (askMnemonic decimal) =
      some (['1', '1', '1'] ++ ['1', bitChar decimal.toNat]) :=
  code?_laidOut (systemCodes edition) (by simp [laidOutCodes])
    (List.mem_append_right _ (List.mem_map.mpr ⟨decimal, by cases decimal <;> decide, rfl⟩))

theorem code?_loadByte :
    code? .basic (loadMnemonic 0) = some (['0', '1', '1'] ++ ['1', '0', '1']) :=
  code?_laidOut (ownCodes .basic) (by simp [laidOutCodes]) List.mem_cons_self

theorem code?_load (width : Fin 4) :
    code? .extended (loadMnemonic width) =
      some (['0', '1', '1'] ++ (['1', '0', '1'] ++ binaryDigits 2 width)) :=
  code?_laidOut (ownCodes .extended) (by simp [laidOutCodes])
    (List.mem_cons_of_mem _ (List.mem_map.mpr ⟨width, List.mem_finRange width, rfl⟩))

theorem code?_write : code? .extended "DPM".toList = some ['1', '0', '1', '1', '1', '1'] :=
  code?_laidOut (ownCodes .extended) (by simp [laidOutCodes]) List.mem_cons_self

theorem code?_fixed {token : Token} {code : List Char} (h : (token, code) ∈ fixedCodes) :
    code? edition token = some code :=
  code?_laidOut fixedCodes (by simp [laidOutCodes]) h

/-! ## Bits of tokens -/

@[simp] theorem tokenBits_nil : tokenBits edition [] = [] := rfl

@[simp] theorem tokenBits_append (first second : List Token) :
    tokenBits edition (first ++ second) = tokenBits edition first ++ tokenBits edition second := by
  simp [tokenBits]

theorem tokenBits_cons {token : Token} {code : List Char} (h : code? edition token = some code)
    (tokens : List Token) :
    tokenBits edition (token :: tokens) = code ++ tokenBits edition tokens := by
  simp [tokenBits, h]

theorem tokenBits_digitToken (value : Nat) (tokens : List Token) :
    tokenBits edition (digitToken value :: tokens) =
      binaryDigits 4 value ++ tokenBits edition tokens :=
  tokenBits_cons (code?_digitToken value) tokens

theorem tokenBits_numberTokens (width value : Nat) :
    tokenBits edition (numberTokens width value) = binaryDigits (4 * width) value := by
  induction width generalizing value with
  | zero => rfl
  | succ width ih =>
      rw [numberTokens, tokenBits_append, ih, tokenBits_digitToken, tokenBits_nil,
        List.append_nil, Nat.mul_succ, binaryDigits_add]
      rfl

theorem tokenBits_fixed {token : Token} {code : List Char} (h : (token, code) ∈ fixedCodes)
    (tokens : List Token) :
    tokenBits edition (token :: tokens) = code ++ tokenBits edition tokens :=
  tokenBits_cons (code?_fixed h) tokens

/-! ## Operations and fields -/

def Plain.operation : Plain → List Char
  | .pause => ['0', '0', '0']
  | .alter _ _ => ['0', '0', '1']
  | .selectPage _ => ['0', '1', '0']
  | .compute _ _ _ => ['0', '1', '1']
  | .load _ _ _ => ['0', '1', '1']
  | .display _ _ => ['1', '0', '0']
  | .displayByte _ => ['1', '0', '0']
  | .undefine _ => ['1', '0', '1']
  | .call _ => ['1', '0', '1']
  | .write _ _ => ['1', '0', '1']
  | .exit _ => ['1', '1', '1']
  | .ask _ _ => ['1', '1', '1']

/-- Only the extended edition has a field for the width of a load. -/
def widthField (edition : Edition) (width : Nat) : List Char :=
  match edition with
  | .basic => []
  | .extended => binaryDigits 2 width

def Plain.fields (edition : Edition) : Plain → List Char
  | .pause => []
  | .alter change register => binaryDigits 3 change.code ++ binaryDigits 4 register
  | .selectPage page => binaryDigits 3 page
  | .compute operation target source =>
      binaryDigits 3 operation.code ++ (binaryDigits 4 target ++ binaryDigits 4 source)
  | .load width target value =>
      ['1', '0', '1'] ++ (widthField edition width ++
        (binaryDigits 4 target ++ binaryDigits (8 * (width.val + 1)) value.toNat))
  | .display form register => binaryDigits 2 form.code ++ binaryDigits 4 register
  | .displayByte byte => ['1', '1'] ++ binaryDigits 8 byte.toNat
  | .undefine name => ['0', '1', '1'] ++ binaryDigits 4 name
  | .call name => ['1', '0', '0'] ++ binaryDigits 4 name
  | .write bytes _ =>
      ['1', '1', '1'] ++ (binaryDigits 16 bytes.length ++
        bytes.flatMap fun byte => binaryDigits 8 byte.toNat)
  | .exit failed => ['0', bitChar failed.toNat]
  | .ask decimal register => ['1', bitChar decimal.toNat] ++ binaryDigits 4 register

def Condition.fields (condition : Condition) : List Char :=
  binaryDigits 4 condition.left ++
    (binaryDigits 2 condition.relation.code ++ binaryDigits 4 condition.right)

def Head.fields : Head → List Char
  | .onlyIf condition => ['0', '0', '0'] ++ condition.fields
  | .whileTrue condition => ['1', '1', '0'] ++ condition.fields
  | .times register => ['0', '0', '1'] ++ binaryDigits 4 register
  | .count register passes =>
      ['1', '0', '1', '0'] ++ (binaryDigits 4 register ++ binaryDigits 8 passes.toNat)
  | .countTo register limit =>
      ['1', '0', '1', '1'] ++ (binaryDigits 4 register ++ binaryDigits 4 limit)
  | .define name => ['0', '1', '0'] ++ binaryDigits 4 name

theorem tokenBits_condition (condition : Condition) :
    tokenBits edition condition.tokens = condition.fields := by
  rw [Condition.tokens, tokenBits_digitToken, tokenBits_cons (code?_relation _),
    tokenBits_digitToken, tokenBits_nil, List.append_nil, Condition.fields]

theorem tokenBits_bytes (bytes : List UInt8) :
    tokenBits edition (bytes.flatMap fun byte => numberTokens 2 byte.toNat) =
      bytes.flatMap fun byte => binaryDigits 8 byte.toNat := by
  induction bytes with
  | nil => rfl
  | cons byte bytes ih =>
      rw [List.flatMap_cons, tokenBits_append, tokenBits_numberTokens, ih, List.flatMap_cons]

theorem tokenBits_load {width : Fin 4} {target : Register}
    {value : BitVec (8 * (width.val + 1))}
    (hfits : (Plain.load width target value).fits edition) :
    tokenBits edition ((Plain.load width target value).tokens edition) =
      (Plain.load width target value).operation ++
        (Plain.load width target value).fields edition := by
  have hvalue : 4 * (2 * (width.val + 1)) = 8 * (width.val + 1) := by omega
  rw [Plain.tokens]
  cases edition with
  | basic =>
      have hwidth : width = 0 := by simpa [Plain.fits] using hfits
      subst hwidth
      rw [tokenBits_cons code?_loadByte, tokenBits_digitToken, tokenBits_numberTokens, hvalue]
      rfl
  | extended =>
      rw [tokenBits_cons (code?_load width), tokenBits_digitToken, tokenBits_numberTokens, hvalue]
      simp only [Plain.operation, Plain.fields, widthField, List.append_assoc]

theorem tokenBits_write {bytes : List UInt8} {fits : bytes.length < 2 ^ 16}
    (hfits : (Plain.write bytes fits).fits edition) :
    tokenBits edition ((Plain.write bytes fits).tokens edition) =
      (Plain.write bytes fits).operation ++ (Plain.write bytes fits).fields edition := by
  have hedition : edition = .extended := by simpa [Plain.fits] using hfits
  subst hedition
  rw [Plain.tokens, List.cons_append, tokenBits_cons code?_write, tokenBits_append,
    tokenBits_numberTokens, tokenBits_bytes]
  rfl

theorem tokenBits_plain {instruction : Plain} (hfits : instruction.fits edition) :
    tokenBits edition (instruction.tokens edition) =
      instruction.operation ++ instruction.fields edition := by
  cases instruction with
  | pause => exact tokenBits_fixed (by decide) []
  | alter change register =>
      rw [Plain.tokens, tokenBits_cons (code?_change change), tokenBits_digitToken, tokenBits_nil,
        List.append_nil, List.append_assoc]
      rfl
  | selectPage page =>
      rw [Plain.tokens, tokenBits_cons (code?_page page), tokenBits_nil, List.append_nil]
      rfl
  | compute operation target source =>
      rw [Plain.tokens, tokenBits_cons (code?_operation operation), tokenBits_digitToken,
        tokenBits_digitToken, tokenBits_nil, List.append_nil, List.append_assoc]
      rfl
  | load width target value => exact tokenBits_load hfits
  | display form register =>
      rw [Plain.tokens, tokenBits_cons (code?_form form), tokenBits_digitToken, tokenBits_nil,
        List.append_nil, List.append_assoc]
      rfl
  | displayByte byte =>
      have hcode : ("DPI".toList, ['1', '0', '0', '1', '1']) ∈ fixedCodes := by simp [fixedCodes]
      rw [Plain.tokens, tokenBits_fixed hcode, tokenBits_numberTokens]
      rfl
  | undefine name =>
      have hcode : ("UDF".toList, ['1', '0', '1', '0', '1', '1']) ∈ fixedCodes := by
        simp [fixedCodes]
      rw [Plain.tokens, tokenBits_fixed hcode, tokenBits_digitToken, tokenBits_nil,
        List.append_nil]
      rfl
  | call name =>
      have hcode : ("CLL".toList, ['1', '0', '1', '1', '0', '0']) ∈ fixedCodes := by
        simp [fixedCodes]
      rw [Plain.tokens, tokenBits_fixed hcode, tokenBits_digitToken, tokenBits_nil,
        List.append_nil]
      rfl
  | write bytes fits => exact tokenBits_write hfits
  | exit failed =>
      rw [Plain.tokens, tokenBits_cons (code?_exit failed), tokenBits_nil, List.append_nil]
      rfl
  | ask decimal register =>
      rw [Plain.tokens, tokenBits_cons (code?_ask decimal), tokenBits_digitToken, tokenBits_nil,
        List.append_nil, List.append_assoc]
      rfl

theorem tokenBits_head (head : Head) :
    tokenBits edition head.tokens = ['1', '0', '1'] ++ head.fields := by
  cases head with
  | onlyIf condition =>
      have hcode : ("IF".toList, ['1', '0', '1', '0', '0', '0']) ∈ fixedCodes := by
        simp [fixedCodes]
      rw [Head.tokens, tokenBits_fixed hcode, tokenBits_condition]
      rfl
  | whileTrue condition =>
      have hcode : ("WHL".toList, ['1', '0', '1', '1', '1', '0']) ∈ fixedCodes := by
        simp [fixedCodes]
      rw [Head.tokens, tokenBits_fixed hcode, tokenBits_condition]
      rfl
  | times register =>
      have hcode : ("REP".toList, ['1', '0', '1', '0', '0', '1']) ∈ fixedCodes := by
        simp [fixedCodes]
      rw [Head.tokens, tokenBits_fixed hcode, tokenBits_digitToken, tokenBits_nil,
        List.append_nil]
      rfl
  | count register passes =>
      have hcode : ("FOR".toList, ['1', '0', '1', '1', '0', '1', '0']) ∈ fixedCodes := by
        simp [fixedCodes]
      rw [Head.tokens, tokenBits_fixed hcode, tokenBits_digitToken, tokenBits_numberTokens]
      rfl
  | countTo register limit =>
      have hcode : ("VFR".toList, ['1', '0', '1', '1', '0', '1', '1']) ∈ fixedCodes := by
        simp [fixedCodes]
      rw [Head.tokens, tokenBits_fixed hcode, tokenBits_digitToken, tokenBits_digitToken,
        tokenBits_nil, List.append_nil]
      rfl
  | define name =>
      have hcode : ("DEF".toList, ['1', '0', '1', '0', '1', '0']) ∈ fixedCodes := by
        simp [fixedCodes]
      rw [Head.tokens, tokenBits_fixed hcode, tokenBits_digitToken, tokenBits_nil,
        List.append_nil]
      rfl

/-! ## Bits of programs -/

theorem allBits_code {token : Token} {code : List Char} (h : code? edition token = some code) :
    AllBits code := by
  have htable : (codeTable edition).all fun entry => entry.2.all isBit := by
    cases edition <;> decide +kernel
  exact List.all_eq_true.mp (List.all_eq_true.mp htable (token, code) (mem_codeTable h))

theorem allBits_tokenBits (tokens : List Token) : AllBits (tokenBits edition tokens) := by
  intro c hc
  obtain ⟨token, -, hmem⟩ := List.mem_flatMap.mp hc
  cases hcode : code? edition token with
  | none => simp [hcode] at hmem
  | some code =>
      rw [hcode] at hmem
      exact allBits_code hcode c hmem

theorem bits_plain {instruction : Plain} (hfits : instruction.fits edition) (rest : Program) :
    (Program.plain instruction rest).bits edition =
      instruction.operation ++ (instruction.fields edition ++ rest.bits edition) := by
  rw [Program.bits, Program.tokens, tokenBits_append, tokenBits_plain hfits, List.append_assoc,
    ← Program.bits]

theorem bodyBits_eq (program : Program) :
    program.bodyBits edition = program.bits edition ++ ['1', '1', '0'] := by
  have hcode : (closeToken, ['1', '1', '0']) ∈ fixedCodes := by simp [fixedCodes]
  rw [Program.bodyBits, tokenBits_fixed hcode, tokenBits_nil, List.append_nil]

theorem bits_block (head : Head) (body rest : Program) :
    (Program.block head body rest).bits edition =
      ['1', '0', '1'] ++ (head.fields ++ (body.bodyBits edition ++ rest.bits edition)) := by
  have hcode : (closeToken, ['1', '1', '0']) ∈ fixedCodes := by simp [fixedCodes]
  rw [Program.bits, Program.tokens, tokenBits_append, tokenBits_append, tokenBits_head,
    tokenBits_fixed hcode, ← Program.bits, ← Program.bits, bodyBits_eq]
  simp only [List.append_assoc]

end BitAssembly.Structured
