import Mathlib
import BitAssembly.Source.Code

/-!
# Structured programs

A program is a sequence of instructions.  An instruction is a plain one, or a
block with a head and a program of its own as its body.  Operands are of the
size that they have in the bits, so every program can be written down.
-/

namespace BitAssembly.Structured

open BitAssembly.Source

abbrev Register := Fin 16

abbrev Name := Fin 16

inductive Change where
  | increment
  | decrement
  | clear
  | restore
  | push
  | pop
  deriving DecidableEq, Repr

inductive Operation where
  | add
  | subtract
  | multiply
  | divide
  | copy
  | power
  | root
  deriving DecidableEq, Repr

inductive Form where
  | character
  | decimal
  | hexadecimal
  deriving DecidableEq, Repr

inductive Relation where
  | equal
  | atMost
  | atLeast
  | differ
  deriving DecidableEq, Repr

structure Condition where
  left : Register
  relation : Relation
  right : Register
  deriving DecidableEq, Repr

inductive Plain where
  | pause
  | alter (change : Change) (register : Register)
  | selectPage (page : Fin 8)
  | compute (operation : Operation) (target source : Register)
  | load (width : Fin 4) (target : Register) (value : BitVec (8 * (width.val + 1)))
  | display (form : Form) (register : Register)
  | displayByte (byte : UInt8)
  | undefine (name : Name)
  | call (name : Name)
  | write (bytes : List UInt8) (fits : bytes.length < 2 ^ 16)
  | exit (failed : Bool)
  | ask (decimal : Bool) (register : Register)
  deriving DecidableEq, Repr

inductive Head where
  | onlyIf (condition : Condition)
  | whileTrue (condition : Condition)
  | times (register : Register)
  | count (register : Register) (passes : UInt8)
  | countTo (register limit : Register)
  | define (name : Name)
  deriving DecidableEq, Repr

inductive Program where
  | done
  | plain (instruction : Plain) (rest : Program)
  | block (head : Head) (body rest : Program)
  deriving DecidableEq, Repr

/-! ## The language of an edition -/

/-- Loads of several bytes and texts belong to the extended edition. -/
def Plain.fits (edition : Edition) : Plain → Bool
  | .load width _ _ => edition = .extended ∨ width = 0
  | .write _ _ => edition = .extended
  | _ => true

def Program.fits (edition : Edition) : Program → Bool
  | .done => true
  | .plain instruction rest => instruction.fits edition && rest.fits edition
  | .block _ body rest => body.fits edition && rest.fits edition

def Head.isDefinition : Head → Bool
  | .define _ => true
  | _ => false

def Program.definesNone : Program → Bool
  | .done => true
  | .plain _ rest => rest.definesNone
  | .block head body rest => !head.isDefinition && body.definesNone && rest.definesNone

/-- Functions are defined outside all blocks only. -/
def Program.definesOutside : Program → Bool
  | .done => true
  | .plain _ rest => rest.definesOutside
  | .block _ body rest => body.definesNone && rest.definesOutside

/-! ## Tokens and bits -/

def digitToken (value : Nat) : Token :=
  [Nat.digitChar (value % 16)]

def numberTokens : Nat → Nat → List Token
  | 0, _ => []
  | width + 1, value => numberTokens width (value / 16) ++ [digitToken value]

def Change.mnemonic : Change → Token
  | .increment => "INC".toList
  | .decrement => "DEC".toList
  | .clear => "CLZ".toList
  | .restore => "CLI".toList
  | .push => "PUS".toList
  | .pop => "POP".toList

def Operation.mnemonic : Operation → Token
  | .add => "ADD".toList
  | .subtract => "SUB".toList
  | .multiply => "MUL".toList
  | .divide => "DIV".toList
  | .copy => "SET".toList
  | .power => "POW".toList
  | .root => "ROT".toList

def Form.mnemonic : Form → Token
  | .character => "DPU".toList
  | .decimal => "DPD".toList
  | .hexadecimal => "DPH".toList

def Relation.sign : Relation → Token
  | .equal => ['=']
  | .atMost => ['<']
  | .atLeast => ['>']
  | .differ => ['!']

def pageMnemonic (page : Fin 8) : Token :=
  ['P', 'G', Nat.digitChar (page.val + 1)]

def loadMnemonic (width : Fin 4) : Token :=
  ['L', 'D', if width = 0 then 'I' else Nat.digitChar (width.val + 1)]

/-- Only the name of the failing exit depends on the edition. -/
def exitMnemonic (edition : Edition) (failed : Bool) : Token :=
  match failed, edition with
  | false, _ => "EXO".toList
  | true, .basic => "EXE".toList
  | true, .extended => "ERR".toList

def askMnemonic (decimal : Bool) : Token :=
  if decimal then "IND".toList else "INH".toList

def Condition.tokens (condition : Condition) : List Token :=
  [digitToken condition.left, condition.relation.sign, digitToken condition.right]

def Plain.tokens (edition : Edition) : Plain → List Token
  | .pause => ["NOP".toList]
  | .alter change register => [change.mnemonic, digitToken register]
  | .selectPage page => [pageMnemonic page]
  | .compute operation target source =>
      [operation.mnemonic, digitToken target, digitToken source]
  | .load width target value =>
      loadMnemonic width :: digitToken target :: numberTokens (2 * (width.val + 1)) value.toNat
  | .display form register => [form.mnemonic, digitToken register]
  | .displayByte byte => "DPI".toList :: numberTokens 2 byte.toNat
  | .undefine name => ["UDF".toList, digitToken name]
  | .call name => ["CLL".toList, digitToken name]
  | .write bytes _ =>
      "DPM".toList :: numberTokens 4 bytes.length ++
        bytes.flatMap fun byte => numberTokens 2 byte.toNat
  | .exit failed => [exitMnemonic edition failed]
  | .ask decimal register => [askMnemonic decimal, digitToken register]

def Head.tokens : Head → List Token
  | .onlyIf condition => "IF".toList :: condition.tokens
  | .whileTrue condition => "WHL".toList :: condition.tokens
  | .times register => ["REP".toList, digitToken register]
  | .count register passes => "FOR".toList :: digitToken register :: numberTokens 2 passes.toNat
  | .countTo register limit => ["VFR".toList, digitToken register, digitToken limit]
  | .define name => ["DEF".toList, digitToken name]

def closeToken : Token := [']']

def Program.tokens (edition : Edition) : Program → List Token
  | .done => []
  | .plain instruction rest => instruction.tokens edition ++ rest.tokens edition
  | .block head body rest =>
      head.tokens ++ body.tokens edition ++ closeToken :: rest.tokens edition

def tokenBits (edition : Edition) (tokens : List Token) : List Char :=
  tokens.flatMap fun token => (code? edition token).getD []

def Program.bits (edition : Edition) (program : Program) : List Char :=
  tokenBits edition (program.tokens edition)

def Program.bodyBits (edition : Edition) (program : Program) : List Char :=
  program.bits edition ++ tokenBits edition [closeToken]

end BitAssembly.Structured
