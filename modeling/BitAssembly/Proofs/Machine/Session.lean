import BitAssembly.Machine.Perform

/-!
# Single operations on a session

What each operation of a running machine answers, written as a function of the
session it acts on.
-/

namespace BitAssembly.Machine

open BitAssembly.Text

theorem getRegister_apply (address : Int) (session : Session) :
    getRegister address session =
      match session.memory.register? address with
      | some value => .ok value session
      | none => .error (.fault .noRegister) session := by
  change (match session.memory.register? address with
    | some value => (pure value : Run Nat)
    | none => fail .noRegister) session = _
  cases session.memory.register? address <;> rfl

theorem setRegister_apply (address value : Int) (session : Session) :
    setRegister address value session =
      match session.memory.store address value with
      | .ok memory => .ok () { session with memory := memory }
      | .error fault => .error (.fault fault) session := by
  change (match session.memory.store address value with
    | .ok memory => (set { session with memory := memory } : Run Unit)
    | .error fault => fail fault) session = _
  cases session.memory.store address value <;> rfl

theorem pop_apply (session : Session) :
    pop session =
      match session.memory.stack with
      | [] => .error (.fault .emptyStack) session
      | value :: rest =>
          .ok value { session with memory := { session.memory with stack := rest } } := by
  change (match session.memory.stack with
    | [] => fail .emptyStack
    | value :: rest => do
        set { session with memory := { session.memory with stack := rest } }
        return value : Run Nat) session = _
  cases session.memory.stack <;> rfl

theorem askLine_apply (prompt : String) (session : Session) :
    askLine prompt session =
      match takeLine? session.console.input with
      | none => .error (.fault .endOfInput) { session with console := session.console.print prompt }
      | some (line, rest) =>
          .ok line { session with
            console := { session.console.print prompt with input := rest } } := by
  change (match takeLine? session.console.input with
    | none => fail .endOfInput
    | some (line, rest) => do
        set { session with console := { session.console.print prompt with input := rest } }
        return line : Run (List Char))
      { session with console := session.console.print prompt } = _
  cases takeLine? session.console.input with
  | none => rfl
  | some pair => rfl

theorem perform_call_apply (passes : Nat) (call : Body → Run Unit) (name : Int)
    (session : Session) :
    perform passes call (.call name) session =
      match session.memory.functions.find? name with
      | some body => call body session
      | none => .ok () session := by
  change (match session.memory.functions.find? name with
    | some body => call body
    | none => (pure () : Run Unit)) session = _
  cases session.memory.functions.find? name <;> rfl

end BitAssembly.Machine
