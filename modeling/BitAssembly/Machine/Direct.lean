import BitAssembly.Machine.Execute

/-!
# Single operations

The operations of a machine, one at a time and with operands of any size, on
texts that are given with them.
-/

namespace BitAssembly.Machine

open BitAssembly.Bits

def onText {α : Type} (text : List Char) (action : Run α) : Run (α × Int) :=
  onCursor (.ofText text) do
    let value ← action
    return (value, (← get).cursor.pos)

/-- Arithmetic by its code.  A load looks at both registers and then takes its
value from the text at hand. -/
def arithmetic (edition : Edition) (mode target source : Int) : Run Unit := do
  if mode = 5 then
    let _ ← getRegister target
    let _ ← getRegister source
    setRegister target (← reading (fetchImmediate edition source))
  else compute (.ofCode mode) target source

def executeBlock (edition : Edition) (limits : Limits) : Run Unit := do
  let session ← get
  let ready := session.memory.page?.isSome
  let instruction ← reading (fetchBlock edition false ready limits.passes)
  perform limits.passes (callBody edition limits) instruction

def executeSystem (edition : Edition) (limits : Limits) : Run Unit := do
  let instruction ← reading fetchSystem
  perform limits.passes (callBody edition limits) instruction

end BitAssembly.Machine
