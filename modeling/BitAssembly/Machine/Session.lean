import BitAssembly.Machine.Console
import BitAssembly.Machine.Memory
import BitAssembly.Machine.Reading

/-!
# A running machine

A session is a memory, a console and the text being read.  Whatever a failing
action did before it failed stays done.
-/

namespace BitAssembly.Machine

open BitAssembly.Bits
open BitAssembly.Text

structure Session where
  memory : Memory
  console : Console
  cursor : Cursor
  traced : Bool
deriving DecidableEq, Repr

abbrev Run := EStateM Stop Session

def Session.start (code : List Char) (traced : Bool) (input : List Char) : Session :=
  ⟨.initial, .ofInput input, .ofText code, traced⟩

def fail {α : Type} (fault : Fault) : Run α :=
  throw (.fault fault)

def ofExcept {α : Type} : Except Fault α → Run α
  | .ok value => pure value
  | .error fault => fail fault

def Session.afterReading (session : Session) (reader : Reader) : Session :=
  { session with cursor := reader.cursor, console := session.console.trace reader.traces }

def reading {α : Type} (action : Reading α) : Run α := fun session =>
  match action ⟨session.cursor, session.traced, []⟩ with
  | .ok value reader => .ok value (session.afterReading reader)
  | .error stop reader => .error stop (session.afterReading reader)

def Session.resume (session after : Session) : Session :=
  { after with cursor := session.cursor, traced := session.traced }

/-- Acts on another text without a trace of its reads, and then returns to the text at hand. -/
def onCursor {α : Type} (cursor : Cursor) (action : Run α) : Run α := fun session =>
  match action { session with cursor := cursor, traced := false } with
  | .ok value after => .ok value (session.resume after)
  | .error stop after => .error stop (session.resume after)

def print (text : String) : Run Unit :=
  modify fun session => { session with console := session.console.print text }

def getRegister (address : Int) : Run Nat := do
  match (← get).memory.register? address with
  | some value => pure value
  | none => fail .noRegister

def setRegister (address value : Int) : Run Unit := do
  let session ← get
  match session.memory.store address value with
  | .ok memory => set { session with memory := memory }
  | .error fault => fail fault

def push (value : Nat) : Run Unit :=
  modify fun session =>
    { session with memory := { session.memory with stack := value :: session.memory.stack } }

def pop : Run Nat := do
  let session ← get
  match session.memory.stack with
  | [] => fail .emptyStack
  | value :: rest =>
      set { session with memory := { session.memory with stack := rest } }
      return value

def selectPage (page : Int) : Run Unit :=
  modify fun session => { session with memory := { session.memory with page := page } }

def define (name : Int) (body : Body) : Run Unit :=
  modify fun session =>
    let functions := session.memory.functions.insert name body
    { session with memory := { session.memory with functions := functions } }

def askLine (prompt : String) : Run (List Char) := do
  print prompt
  let session ← get
  match takeLine? session.console.input with
  | none => fail .endOfInput
  | some (line, rest) =>
      set { session with console := { session.console with input := rest } }
      return line

end BitAssembly.Machine
