import BitAssembly.Edition
import BitAssembly.Lint.Operand
import BitAssembly.Text.Numeral

/-!
# Rules of the mnemonics

A rule says which operands follow a mnemonic, which block it opens, and how a
narrated check tells what it does.
-/

namespace BitAssembly.Lint

open BitAssembly.Text

inductive Shape where
  | bare
  | single
  | pair
  | valued (count : Nat)
  | compared
deriving DecidableEq, Repr

structure Operands where
  first : List Char
  sign : List Char
  second : List Char
deriving DecidableEq, Repr

def Shape.read (levels : Nat) : Shape → Linting Operands
  | .bare => return ⟨[], [], []⟩
  | .single => return ⟨← number levels 1 true, [], []⟩
  | .pair => do
      match ← number levels 2 true with
      | [first, second] => return ⟨[first], [], [second]⟩
      | _ => fail .shortOperand
  | .valued count => do
      let first ← number levels 1 false
      return ⟨first, [], ← number levels count true⟩
  | .compared => do
      let first ← number levels 1 true
      let sign ← sign levels
      return ⟨first, sign, ← number levels 1 true⟩

structure Rule where
  shape : Shape
  opens : Option String
  narrate : Operands → Except Fault String

def register (chars : List Char) : String :=
  "reg" ++ String.ofList chars

def function (chars : List Char) : String :=
  "func" ++ String.ofList chars

/-- The number that digits spell in hexadecimal, in decimal. -/
def decimal (chars : List Char) : Except Fault String := do
  return toString (← parseInt 16 chars)

def comparison : List Char → Except Fault String
  | ['='] => .ok "=="
  | ['<'] => .ok "<="
  | ['>'] => .ok ">="
  | ['!'] => .ok "!="
  | _ => .error .noComparison

def bareRule (text : String) : Rule :=
  ⟨.bare, none, fun _ => .ok text⟩

def singleRule (before after : String) : Rule :=
  ⟨.single, none, fun operands => .ok (before ++ register operands.first ++ after)⟩

def displayRule (format : String) : Rule :=
  ⟨.single, none, fun operands =>
    .ok ("Print register " ++ String.ofList operands.first ++ " (" ++ format ++ ")")⟩

def functionRule (opens : Option String) (before : String) : Rule :=
  ⟨.single, opens, fun operands => .ok (before ++ function operands.first)⟩

def arithmeticRule (operator : String) : Rule :=
  ⟨.pair, none, fun operands =>
    let target := register operands.first
    .ok (target ++ " = " ++ target ++ " " ++ operator ++ " " ++ register operands.second)⟩

def loadRule (count : Nat) : Rule :=
  ⟨.valued count, none, fun operands =>
    .ok (register operands.first ++ " = 0x" ++ String.ofList operands.second)⟩

def comparedRule (name : String) : Rule :=
  ⟨.compared, some name, fun operands => do
    let relation ← comparison operands.sign
    return name ++ " " ++ register operands.first ++ " " ++ relation ++ " "
      ++ register operands.second⟩

def countedText (counter : List Char) (limit : String) : String :=
  let name := register counter
  "FOR (" ++ name ++ "=1; " ++ name ++ "<=" ++ limit ++ "; " ++ name ++ "++)"

def sharedRules : List (String × Rule) :=
  [("IF", comparedRule "IF"),
   ("DPU", displayRule "utf8"),
   ("DPD", displayRule "dec"),
   ("DPH", displayRule "hex"),
   ("ADD", arithmeticRule "+"),
   ("SUB", arithmeticRule "-"),
   ("MUL", arithmeticRule "*"),
   ("DIV", arithmeticRule "/"),
   ("SET", ⟨.pair, none, fun operands =>
     .ok (register operands.first ++ " = " ++ register operands.second)⟩),
   ("LDI", loadRule 2),
   ("INC", singleRule "INC " ""),
   ("DEC", singleRule "DEC " ""),
   ("CLZ", singleRule "" " = 0"),
   ("CLI", ⟨.single, none, fun operands => do
     return register operands.first ++ " = " ++ (← decimal operands.first)⟩),
   ("POW", arithmeticRule "^"),
   ("ROT", ⟨.pair, none, fun operands =>
     .ok (register operands.first ++ " = (" ++ register operands.second ++ ")root of "
       ++ register operands.first)⟩),
   ("REP", ⟨.single, some "REPEAT", fun operands =>
     .ok ("REPEAT " ++ register operands.first)⟩),
   ("DEF", functionRule (some "FUNCDEF") "FUNCDEF "),
   ("UDF", functionRule none "FUNCUNDEF "),
   ("CLL", functionRule none "FUNCCALL "),
   ("FOR", ⟨.valued 2, some "FOR", fun operands => do
     return countedText operands.first (← decimal operands.second)⟩),
   ("VFR", ⟨.valued 1, some "FOR", fun operands =>
     .ok (countedText operands.first (register operands.second))⟩),
   ("WHL", comparedRule "WHILE"),
   ("PG1", bareRule "PAGE 1"),
   ("PG2", bareRule "PAGE 2"),
   ("PG3", bareRule "PAGE 3"),
   ("PG4", bareRule "PAGE 4"),
   ("PG5", bareRule "PAGE 5"),
   ("PG6", bareRule "PAGE 6"),
   ("PG7", bareRule "PAGE 7"),
   ("PG8", bareRule "PAGE 8"),
   ("PUS", singleRule "PUSH " ""),
   ("POP", singleRule "POP to " ""),
   ("IND", singleRule "INPUT to " " (dec)"),
   ("INH", singleRule "INPUT to " " (hex)"),
   ("EXO", bareRule "EXIT (no error)")]

def basicRules : List (String × Rule) :=
  [("EXE", bareRule "EXIT (error)")]

def extendedRules : List (String × Rule) :=
  [("LD2", loadRule 4),
   ("LD3", loadRule 6),
   ("LD4", loadRule 8),
   ("ERR", bareRule "EXIT (error)")]

def spellRules (rules : List (String × Rule)) : List (List Char × Rule) :=
  rules.map fun entry => (entry.1.toList, entry.2)

def basicRuleTable : List (List Char × Rule) :=
  spellRules (sharedRules ++ basicRules)

def extendedRuleTable : List (List Char × Rule) :=
  spellRules (sharedRules ++ extendedRules)

def rule? (edition : Edition) (mnemonic : List Char) : Option Rule :=
  match edition with
  | .basic => basicRuleTable.lookup mnemonic
  | .extended => extendedRuleTable.lookup mnemonic

end BitAssembly.Lint
