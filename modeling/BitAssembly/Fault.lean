/-!
# Faults and the ways a computation stops

A `Fault` is a cause of failure; `Fault.message` is the only place that words
it.  A `Stop` is any end other than returning normally.
-/

namespace BitAssembly

inductive Fault where
  | endOfText
  | badNumeral (radix : Nat)
  | longNumeral (digits : Nat)
  | noRegister
  | noTarget
  | emptyStack
  | noWidth
  | notCodePoint
  /-- The value is no code point and exceeds a signed 32-bit word. -/
  | wideCodePoint
  | surrogate
  | badEncoding
  | negativeByte
  | endOfInput
  | badProgram
  /-- Assembly gave no token list or no program to build a machine from. -/
  | noProgram
  | noBits
  | leadingQuote
  | unexpectedQuote
  | longText
  | noArgument
  /-- A named file does not exist; the name is already quoted. -/
  | noFile (name : String)
  | notNumber (line : Nat) (column : Int)
  | notComparison (line : Nat) (column : Int)
  | extraNumber (line : Nat) (column : Int)
  /-- An operand has too few digits to name two registers. -/
  | shortOperand
  | noComparison
  | noBlock
deriving DecidableEq, Repr

def place (line : Nat) (column : Int) : String :=
  s!"({line}, {column})"

/-- The wording of each fault; encoding faults have none. -/
def Fault.message : Fault → Option String
  | .endOfText => "Unexpected end of bitstream"
  | .badNumeral radix => s!"invalid literal for int() with base {radix}"
  | .longNumeral digits =>
      "Exceeds the limit (4300 digits) for integer string conversion: value has "
        ++ toString digits ++ " digits; use sys.set_int_max_str_digits() to increase the limit"
  | .noRegister => "list index out of range"
  | .noTarget => "list assignment index out of range"
  | .emptyStack => "pop from empty list"
  | .noWidth => "cannot access local variable 'res' where it is not associated with a value"
  | .notCodePoint => "chr() arg not in range(0x110000)"
  | .wideCodePoint => "Python int too large to convert to C int"
  | .surrogate => none
  | .badEncoding => none
  | .negativeByte => "can't convert negative int to unsigned"
  | .endOfInput => "EOF when reading a line"
  | .badProgram => "bitcode argument was improperly formatted"
  | .noProgram => "'NoneType' object is not iterable"
  | .noBits => "'NoneType' object has no attribute 'replace'"
  | .leadingQuote => "list index out of range"
  | .unexpectedQuote => "Unexpected quote"
  | .longText => "int too big to convert"
  | .noArgument => "list index out of range"
  | .noFile name => "[Errno 2] No such file or directory: " ++ name
  | .notNumber line column => "Character at " ++ place line column ++ " was not a number"
  | .notComparison line column =>
      "Character at " ++ place line column ++ " was not a boolean operator (i, j, k, l)"
  | .extraNumber line column => "Unexpected number at " ++ place line column
  | .shortOperand => "string index out of range"
  | .noComparison => "''"
  | .noBlock => "pop from empty list"

inductive Stop where
  /-- The program asked to end, with this status if it named one. -/
  | exit (status : Option Nat)
  | fault (cause : Fault)
  | tooDeep
  /-- A loop used up its allowance of passes. -/
  | unfinished
deriving DecidableEq, Repr

end BitAssembly
