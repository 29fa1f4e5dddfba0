import BitAssembly.Bits.Cursor
import BitAssembly.Fault
import BitAssembly.Text.Blank

/-!
# Progress of a check

A check reads a source and keeps count of lines, columns and open blocks.  What
was read before a failure stays read.
-/

namespace BitAssembly.Lint

open BitAssembly.Bits
open BitAssembly.Text

structure Progress where
  cursor : Cursor
  line : Nat
  column : Int
  /-- Line and column before the latest read. -/
  last : Nat × Int
  /-- Blocks opened less blocks closed. -/
  depth : Int
  /-- Names of opened blocks, newest first. -/
  blocks : List String
  printed : List String
deriving DecidableEq, Repr

def Progress.start (source : List Char) : Progress :=
  ⟨⟨source.toArray, 0⟩, 1, 1, (0, 0), 0, [], []⟩

def Progress.output (progress : Progress) : String :=
  String.join progress.printed.reverse

abbrev Linting := EStateM Stop Progress

def fail {α : Type} (fault : Fault) : Linting α :=
  throw (.fault fault)

def ofExcept {α : Type} : Except Fault α → Linting α
  | .ok value => pure value
  | .error fault => fail fault

def printLine (text : String) : Linting Unit :=
  modify fun progress => { progress with printed := (text ++ "\n") :: progress.printed }

def look (count : Int) : Linting (List Char) := do
  match (← get).cursor.peek? count with
  | some chars => pure chars
  | none => fail .endOfText

def Progress.advance (progress : Progress) (count : Int) (chars : List Char) : Progress :=
  let breaks := chars.contains '\n'
  { progress with
    cursor := progress.cursor.advance count
    last := (progress.line, progress.column)
    line := if breaks then progress.line + 1 else progress.line
    column := if breaks then 1 else progress.column + count }

def take (count : Int) : Linting (List Char) := do
  let chars ← look count
  modify fun progress => progress.advance count chars
  return chars

/-- Puts characters in front of the whole text.  The position stays, so that what
was read last is read again. -/
def pushBack (chars : List Char) : Linting Unit :=
  modify fun progress =>
    let text := chars.toArray ++ progress.cursor.text
    { progress with cursor := { progress.cursor with text := text } }

/-- Whether only allowed characters occur; no characters at all are allowed too. -/
def among (allowed chars : List Char) : Bool :=
  chars.all fun c => allowed.contains c

def isFiller (chars : List Char) : Bool :=
  among "()[]".toList chars || chars.all isBlank

end BitAssembly.Lint
