import BitAssembly.Edition
import BitAssembly.Machine.Instruction
import BitAssembly.Machine.Reading

/-!
# Fetching an instruction

Instructions have different lengths, so a block is delimited by walking over
its instructions up to the closing mark that matches its opening.  Some fetches
look at a register before they have read all operands; `ready` says that this
succeeds, which it does exactly if the selected page exists.
-/

namespace BitAssembly.Machine

/-- Fails as the reading of a register does, unless its page is there. -/
def require (ready : Bool) : Reading Unit :=
  if ready then pure () else throw (.fault .noRegister)

/-! ## Passing over instructions -/

def skipOperands (edition : Edition) (op : List Char) : Reading (List Char) := do
  if op = ['0', '0', '1'] then read 7
  else if op = ['0', '1', '0'] then read 3
  else if op = ['0', '1', '1'] then
    let mode ← read 3
    if mode = ['1', '0', '1'] then
      match edition with
      | .basic =>
          let target ← read 4
          return mode ++ target ++ (← read 8)
      | .extended =>
          let width ← read 2
          let target ← read 4
          let value ← read (8 * ((← binary width) + 1))
          return mode ++ width ++ target ++ value
    else
      match edition with
      | .basic =>
          let target ← read 4
          return mode ++ target ++ (← read 4)
      | .extended => return mode ++ (← read 8)
  else if op = ['1', '0', '0'] then
    let mode ← read 2
    if (← binary mode) < 3 then return mode ++ (← read 4)
    else return mode ++ (← read 8)
  else if op = ['1', '1', '1'] then
    let mode ← read 2
    if mode = ['1', '0'] ∨ mode = ['1', '1'] then return mode ++ (← read 4)
    else return mode
  else return []

/-- The head of an inner block or block-like instruction, and whether it opens a block. -/
def skipHead (edition : Edition) : Reading (List Char × Bool) := do
  let kind ← read 3
  if kind = ['0', '0', '0'] ∨ kind = ['1', '1', '0'] then
    return (kind ++ (← read 10), true)
  else if kind = ['1', '0', '0'] ∨ kind = ['0', '1', '1'] then
    return (kind ++ (← read 4), false)
  else if kind = ['1', '0', '1'] then
    let mode ← read 1
    if mode = ['0'] then return (kind ++ mode ++ (← read 12), true)
    else return (kind ++ mode ++ (← read 8), true)
  else if kind = ['0', '0', '1'] then return (kind ++ (← read 4), true)
  else if kind = ['1', '1', '1'] ∧ edition = .extended then
    let size ← read 16
    let text ← read ((← binary size) * 8)
    return (kind ++ size ++ text, false)
  else return (kind, true)

/-- Walks over instructions while `depth` blocks are open; `chunk` holds what was
passed.  Each pass uses one unit of `fuel`. -/
def skipBlock (edition : Edition) (tracing : Bool) : Nat → Nat → Body → Reading Body
  | 0, _, _ => throw .unfinished
  | fuel + 1, depth, chunk => do
      let op ← read 3
      if tracing then note (toString depth ++ "lo")
      if op = ['1', '0', '1'] then
        let (head, opens) ← skipHead edition
        let inner := if opens then depth + 1 else depth
        if tracing then note (String.ofList head ++ "; depth = " ++ toString inner)
        skipBlock edition tracing fuel inner (chunk ++ op ++ head)
      else if op = ['1', '1', '0'] then
        if tracing then note ("depth = " ++ toString depth)
        if depth ≤ 1 then return chunk ++ op
        else skipBlock edition tracing fuel (depth - 1) (chunk ++ op)
      else
        let operands ← skipOperands edition op
        skipBlock edition tracing fuel depth (chunk ++ op ++ operands)

/-- The body of a block whose head has just been read.  A text of bits is
passed in at most one pass for each character; `spare` more passes are granted for
texts in which a length is negative. -/
def fetchBody (edition : Edition) (tracing : Bool) (spare : Nat) : Reading Body := do
  let reader ← get
  skipBlock edition tracing (reader.cursor.text.size + 1 + spare) 1 #[]

/-! ## Operands -/

/-- The value of a load, whose width code counts its bytes from zero. -/
def fetchImmediate (edition : Edition) (width : Int) : Reading Int :=
  match edition with
  | .basic => operand 8
  | .extended =>
      if 0 ≤ width ∧ width ≤ 3 then operand (8 * (width + 1))
      else throw (.fault .noWidth)

def fetchLoad (edition : Edition) (ready : Bool) (target width : Int) : Reading Instruction := do
  require ready
  return .load target (← fetchImmediate edition width)

def fetchArithmetic (edition : Edition) (ready : Bool) : Reading Instruction := do
  let mode ← operand 3
  if mode = 5 then
    match edition with
    | .basic => fetchLoad edition ready (← operand 4) 0
    | .extended =>
        let width ← operand 2
        fetchLoad edition ready (← operand 4) width
  else
    let target ← operand 4
    return .compute (.ofCode mode) target (← operand 4)

def fetchDisplay : Reading Instruction := do
  let mode ← operand 2
  if mode < 3 then return .display (.ofCode mode) (← operand 4)
  else return .displayValue (.ofCode mode) (← operand 8)

def fetchTest : Reading Test := do
  let left ← operand 4
  let comparison ← operand 2
  return ⟨.ofCode comparison, left, ← operand 4⟩

def fetchBytes : Nat → List UInt8 → Reading (List UInt8)
  | 0, before => return before.reverse
  | count + 1, before => do
      let value ← operand 8
      if value < 0 then throw (.fault .negativeByte)
      else fetchBytes count (UInt8.ofNat value.toNat :: before)

def fetchBound (ready : Bool) : Reading (Int × Bound) := do
  let mode ← operand 1
  let address ← operand 4
  if mode = 0 then return (address, .fixed (← operand 8))
  else
    let limit ← operand 4
    require ready
    return (address, .register limit)

def fetchBlock (edition : Edition) (tracing ready : Bool) (spare : Nat) : Reading Instruction := do
  let kind ← operand 3
  if kind = 0 then
    let test ← fetchTest
    return .onlyIf test (← fetchBody edition tracing spare)
  else if kind = 1 then
    let address ← operand 4
    require ready
    return .times address (← fetchBody edition tracing spare)
  else if kind = 2 then
    let name ← operand 4
    return .define name (← fetchBody edition tracing spare)
  else if kind = 3 then return .undefine (← operand 4)
  else if kind = 4 then return .call (← operand 4)
  else if kind = 5 then
    let (address, bound) ← fetchBound ready
    return .count address bound (← fetchBody edition tracing spare)
  else if kind = 6 then
    let test ← fetchTest
    return .whileTrue test (← fetchBody edition tracing spare)
  else if kind = 7 ∧ edition = .extended then
    let size ← operand 16
    return .write (← fetchBytes size.toNat [])
  else return .pause

def fetchSystem : Reading Instruction := do
  let code ← operand 2
  if code = 0 then return .exit 0
  else if code = 1 then return .exit 1
  else if code = 2 then return .ask 16 (← operand 4)
  else if code = 3 then return .ask 10 (← operand 4)
  else return .pause

/-- The next instruction.  Three characters that are no operation are passed over. -/
def fetch (edition : Edition) (tracing ready : Bool) (spare : Nat) : Reading Instruction := do
  let op ← read 3
  if tracing then note "tlo"
  if op = ['0', '0', '1'] then
    let mode ← operand 3
    return .alter (.ofCode mode) (← operand 4)
  else if op = ['0', '1', '0'] then return .selectPage (← operand 3)
  else if op = ['0', '1', '1'] then fetchArithmetic edition ready
  else if op = ['1', '0', '0'] then fetchDisplay
  else if op = ['1', '0', '1'] then fetchBlock edition tracing ready spare
  else if op = ['1', '1', '0'] then return .close
  else if op = ['1', '1', '1'] then fetchSystem
  else return .pause

end BitAssembly.Machine
