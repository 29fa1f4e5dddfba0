import BitAssembly.Lint.Progress

/-!
# Operands

An operand is read one character at a time.  Fillers before it are passed over,
each one level deeper, up to a limit of levels.
-/

namespace BitAssembly.Lint

def digits : List Char :=
  "1234567890abcdef".toList

def signs : List Char :=
  "=<>!".toList

/-- One digit.  A digit after fillers is followed by another character. -/
def digit : Nat → Linting (List Char)
  | 0 => throw .tooDeep
  | levels + 1 => do
      let chars ← take 1
      if among digits chars then return chars
      else if isFiller chars then
        let found ← digit levels
        let _ ← look 1
        return found
      else
        let (line, column) := (← get).last
        fail (.notNumber line column)

def digitRun (levels : Nat) : Nat → List Char → Linting (List Char)
  | 0, before => return before
  | count + 1, before => do
      let found ← digit levels
      digitRun levels count (before ++ found)

/-- A number of so many digits, which is followed by another character; with
`alone`, that character is no digit. -/
def number (levels : Nat) (count : Int) (alone : Bool) : Linting (List Char) := do
  let found ← digitRun levels count.toNat []
  let next ← look 1
  if among digits next && alone then
    let progress ← get
    fail (.extraNumber progress.line progress.column)
  else return found

def sign : Nat → Linting (List Char)
  | 0 => throw .tooDeep
  | levels + 1 => do
      let chars ← take 1
      if among signs chars then return chars
      else if isFiller chars then sign levels
      else
        let (line, column) := (← get).last
        fail (.notComparison line column)

/-- One character that is no filler; without `keep` it is put back. -/
def solid (keep : Bool) : Nat → Linting (List Char)
  | 0 => throw .tooDeep
  | levels + 1 => do
      let chars ← take 1
      if isFiller chars then solid keep levels
      else
        if !keep then pushBack chars
        return chars

def solidRun (levels : Nat) (keep : Bool) : Nat → List Char → Linting (List Char)
  | 0, before => return before
  | count + 1, before => do
      let found ← solid keep levels
      solidRun levels keep count (before ++ found)

/-- Characters that are no fillers: so many of them, or one that is put back. -/
def solids (levels : Nat) (count : Int) (keep : Bool) : Linting (List Char) :=
  solidRun levels keep (if keep then count.toNat else 1) []

end BitAssembly.Lint
