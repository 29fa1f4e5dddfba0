import BitAssembly.Bits.Cursor
import BitAssembly.Fault
import BitAssembly.Text.Numeral

/-!
# Reading bits

Reading moves a cursor and may leave lines in a trace.  It knows nothing of the
machine, and what was read before a failure stays read.
-/

namespace BitAssembly.Machine

open BitAssembly.Bits
open BitAssembly.Text

structure Reader where
  cursor : Cursor
  traced : Bool
  /-- Trace lines, newest first. -/
  traces : List String
deriving DecidableEq, Repr

abbrev Reading := EStateM Stop Reader

def note (line : String) : Reading Unit :=
  modify fun reader => { reader with traces := line :: reader.traces }

def peek (count : Int) : Reading (List Char) := do
  match (← get).cursor.peek? count with
  | some chars => return chars
  | none => throw (.fault .endOfText)

def read (count : Int) : Reading (List Char) := do
  let chars ← peek count
  modify fun reader => { reader with cursor := reader.cursor.advance count }
  if (← get).traced then note ("r: " ++ String.ofList chars)
  return chars

def binary (chars : List Char) : Reading Int :=
  match parseInt 2 chars with
  | .ok value => pure value
  | .error fault => throw (.fault fault)

def operand (count : Int) : Reading Int := do
  binary (← read count)

end BitAssembly.Machine
