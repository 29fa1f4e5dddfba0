import BitAssembly.Lint.Rule

/-!
# Checking a source

A check goes through a source once.  It finds operands that are missing or too
many, and follows the nesting of blocks.  A narrated check prints what each
mnemonic does and warns of blocks that do not match.
-/

namespace BitAssembly.Lint

open BitAssembly.Text

def closeBlock (narrated : Bool) : Linting Unit := do
  modify fun progress => { progress with depth := progress.depth - 1 }
  let progress ← get
  if narrated then
    match progress.blocks with
    | [] => pure ()
    | name :: rest =>
        set { progress with blocks := rest }
        printLine ("END " ++ name)
    if progress.depth < 0 ∧ progress.cursor.pos + 1 ≤ progress.cursor.text.size then
      printLine ("\x1b[33mSyntaxWarning\x1b[39m ']' at "
        ++ place progress.last.1 progress.last.2
        ++ " will end the script, possibly prematurely. "
        ++ "if this is intentional, ignore this message.")

def openBlock (name : String) : Linting Unit :=
  modify fun progress =>
    { progress with depth := progress.depth + 1, blocks := name :: progress.blocks }

def Rule.check (rule : Rule) (levels : Nat) (narrated : Bool) : Linting Unit := do
  match rule.opens with
  | some name => openBlock name
  | none => pure ()
  let operands ← rule.shape.read levels
  if narrated then printLine (← ofExcept (rule.narrate operands))

/-- Reads up to and including a quotation mark; `before` holds what was read, newest first. -/
def takeThrough (mark : List Char) : Nat → List Char → Linting (List Char)
  | 0, _ => throw .unfinished
  | fuel + 1, before => do
      let chars ← take 1
      if chars = mark then return (chars.reverse ++ before).reverse
      else takeThrough mark fuel (chars.reverse ++ before)

def Progress.unread (progress : Progress) : Nat :=
  (progress.cursor.text.size - progress.cursor.pos).toNat

def byteChar (chars : List Char) : Except Fault String := do
  let value ← parseInt 16 chars
  if value < 0x80 then return String.singleton (Char.ofNat value.toNat)
  else .error .badEncoding

/-- Checks what follows an immediate display: a quoted text or a byte.  The mark
that opens a text is read twice, so that the text counts as ended there. -/
def checkImmediate (levels : Nat) (narrated : Bool) : Linting Unit := do
  let next ← solids levels 1 false
  if next = ['\x22'] ∨ next = ['\x27'] then
    let chars ← takeThrough next ((← get).unread + 1) []
    if narrated then printLine ("Print immediate \"" ++ String.ofList chars ++ "\"")
  else
    let byte ← number levels 2 true
    if narrated then
      let text ← ofExcept (byteChar byte)
      printLine ("Print immediate 0x" ++ String.ofList byte ++ " (" ++ text ++ ")")

def textWarning : String :=
  "\x1b[33mThe \x1b[34mDPM\x1b[33m command should never be used when manually writing code, "
    ++ "as it is intended for compiler use only. Please use \x1b[34mDPI\x1b[33m instead."

def checkMnemonic (edition : Edition) (levels : Nat) (narrated : Bool) (mnemonic : List Char) :
    Linting Unit :=
  if mnemonic = "DPI".toList then checkImmediate levels narrated
  else if mnemonic = "DPM".toList ∧ edition = .extended then printLine textWarning
  else
    match rule? edition mnemonic with
    | some rule => rule.check levels narrated
    | none => pure ()

/-- Checks one filler or one mnemonic; `false` if too little text is left for a mnemonic. -/
def checkNext (edition : Edition) (levels : Nat) (narrated : Bool) : Linting Bool := do
  let next ← look 1
  if isFiller next then
    let _ ← take 1
    if next = [']'] then closeBlock narrated
    return true
  else
    let progress ← get
    if progress.cursor.pos + 3 > progress.cursor.text.size then return false
    let two ← take 2
    if two = "IF".toList then checkMnemonic edition levels narrated two
    else
      let third ← take 1
      checkMnemonic edition levels narrated (two ++ third)
    return true

def checkAll (edition : Edition) (levels : Nat) (narrated : Bool) : Nat → Linting Unit
  | 0 => throw .unfinished
  | fuel + 1 => do
      if (← get).cursor.atEnd then return
      if ← checkNext edition levels narrated then checkAll edition levels narrated fuel

def checkClosed (narrated : Bool) : Linting Unit := do
  let progress ← get
  if 0 < progress.depth ∧ narrated then
    match progress.blocks with
    | [] => fail .noBlock
    | name :: rest =>
        set { progress with blocks := rest }
        printLine ("Unclosed block found, possibly a " ++ name)

/-- How many fillers an operand may follow. -/
def levelLimit : Nat := 1000

def check (edition : Edition) (levels : Nat) (narrated : Bool) : Linting Unit := do
  let progress ← get
  checkAll edition levels narrated (progress.unread + 1)
  checkClosed narrated

end BitAssembly.Lint
