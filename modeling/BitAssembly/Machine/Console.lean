import BitAssembly.Fault
import BitAssembly.Text.Line
import BitAssembly.Text.Numeral

/-!
# The console

What a machine has printed, and the input that it has not yet read.  Trace
lines are kept apart from what the program prints.
-/

namespace BitAssembly.Machine

open BitAssembly.Text

structure Emission where
  text : String
  traced : Bool
deriving DecidableEq, Repr

structure Console where
  /-- Newest first. -/
  emitted : List Emission
  input : List Char
deriving DecidableEq, Repr

def Console.ofInput (input : List Char) : Console :=
  ⟨[], input⟩

def Console.print (console : Console) (text : String) : Console :=
  { console with emitted := ⟨text, false⟩ :: console.emitted }

/-- Adds trace lines, given newest first. -/
def Console.trace (console : Console) (lines : List String) : Console :=
  if lines.isEmpty then console
  else { console with emitted := lines.map (⟨· ++ "\n", true⟩) ++ console.emitted }

def Console.output (console : Console) : String :=
  String.join (console.emitted.reverse.map Emission.text)

def displayedChar (value : Int) : Except Fault Char :=
  if value < -0x80000000 ∨ 0x80000000 ≤ value then .error .wideCodePoint
  else if value < 0 ∨ 0x110000 ≤ value then .error .notCodePoint
  else if 0xd800 ≤ value ∧ value ≤ 0xdfff then .error .surrogate
  else .ok (Char.ofNat value.toNat)

/-- Hexadecimal digits in upper case; a negative value has an X in front. -/
def upperHex (value : Int) : String :=
  let digits := (Nat.toDigits 16 value.natAbs).map Char.toUpper
  String.ofList (if value < 0 then 'X' :: digits else digits)

end BitAssembly.Machine
