import BitAssembly.Machine.Fetch
import BitAssembly.Machine.Perform

/-!
# Running a text of bits

Instructions are fetched and performed in turn until the text ends or a closing
mark is met.  The body of a block or a function is run in the same way on a
text of its own, one level deeper.
-/

namespace BitAssembly.Machine

open BitAssembly.Bits

structure Limits where
  depth : Nat
  /-- How many passes a loop may make whose end depends on data. -/
  passes : Nat
deriving DecidableEq, Repr

def Limits.standard : Limits :=
  ⟨1000, 0x1000000000000000⟩

def fetchNext (edition : Edition) (tracing : Bool) (passes : Nat) : Run Instruction := do
  let session ← get
  reading (fetch edition tracing session.memory.page?.isSome passes)

def executeText (edition : Edition) (tracing : Bool) (passes : Nat) (call : Body → Run Unit) :
    Nat → Run Unit
  | 0 => throw .unfinished
  | fuel + 1 => do
      if (← get).cursor.atEnd then return
      let instruction ← fetchNext edition tracing passes
      if instruction = .close then return
      perform passes call instruction
      executeText edition tracing passes call fuel

def executeAt (edition : Edition) (passes : Nat) : Nat → Bool → Run Unit
  | 0, _ => throw .tooDeep
  | depth + 1, tracing => do
      let session ← get
      let call := fun body => onCursor (.ofChars body) (executeAt edition passes depth false)
      executeText edition tracing passes call (session.cursor.text.size + 1 + passes)

def execute (edition : Edition) (limits : Limits) (tracing : Bool) : Run Unit :=
  executeAt edition limits.passes limits.depth tracing

def callBody (edition : Edition) (limits : Limits) (body : Body) : Run Unit :=
  onCursor (.ofChars body) (executeAt edition limits.passes limits.depth false)

end BitAssembly.Machine
