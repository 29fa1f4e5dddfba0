import BitAssembly.Machine.Execute
import BitAssembly.Proofs.Structured.Program

/-!
# An interpreter of structured programs

The interpreter follows the structure of a program and knows nothing of bits.
Its state names only pages and registers that exist, and its functions are
programs.  A body is entered one level deeper than the text it stands in.
-/

namespace BitAssembly.Structured

open BitAssembly.Machine
open BitAssembly.Text

structure State where
  pages : Vector (Vector Nat 16) 8
  page : Fin 8
  stack : List Nat
  /-- Functions by name; one that was removed keeps its place. -/
  functions : SortedTable Name (Option Program)
  console : Console

abbrev Exec := EStateM Stop State

def State.initial : State :=
  ⟨Vector.replicate 8 (Vector.ofFn fun address => address.val), 0, [], [], .ofInput []⟩

def State.read (state : State) (register : Register) : Nat :=
  state.pages[state.page][register]

def State.write (state : State) (register : Register) (value : Int) : State :=
  let registers := state.pages[state.page].set register (wrap value)
  { state with pages := shareLast (state.pages.set state.page registers) state.page }

def look (register : Register) : Exec Nat := do
  return (← get).read register

def assign (register : Register) (value : Int) : Exec Unit :=
  modify (·.write register value)

def say (text : String) : Exec Unit :=
  modify fun state => { state with console := state.console.print text }

def bindName (name : Name) (body : Option Program) : Exec Unit :=
  modify fun state => { state with functions := state.functions.insert name body }

def orFault {α : Type} : Except Fault α → Exec α
  | .ok value => pure value
  | .error fault => throw (.fault fault)

def takeTop : Exec Nat := do
  let state ← get
  match state.stack with
  | [] => throw (.fault .emptyStack)
  | value :: rest =>
      set { state with stack := rest }
      return value

theorem takeTop_apply (state : State) :
    takeTop state =
      match state.stack with
      | [] => .error (.fault .emptyStack) state
      | value :: rest => .ok value { state with stack := rest } := by
  change (match state.stack with
    | [] => throw (.fault .emptyStack)
    | value :: rest => do
        set { state with stack := rest }
        return value : Exec Nat) state = _
  cases state.stack <;> rfl

def nextLine (prompt : String) : Exec (List Char) := do
  say prompt
  let state ← get
  match takeLine? state.console.input with
  | none => throw (.fault .endOfInput)
  | some (line, rest) =>
      set { state with console := { state.console with input := rest } }
      return line

theorem nextLine_apply (prompt : String) (state : State) :
    nextLine prompt state =
      match takeLine? state.console.input with
      | none => .error (.fault .endOfInput) { state with console := state.console.print prompt }
      | some (line, rest) =>
          .ok line { state with
            console := { state.console.print prompt with input := rest } } := by
  change (match takeLine? state.console.input with
    | none => throw (.fault .endOfInput)
    | some (line, rest) => do
        set { state with console := { state.console.print prompt with input := rest } }
        return line : Exec (List Char))
      { state with console := state.console.print prompt } = _
  cases takeLine? state.console.input <;> rfl

def Change.act (change : Change) (register : Register) : Exec Unit := do
  let value ← look register
  match change with
  | .increment => assign register ((value + 1) % 256 : Nat)
  | .decrement => assign register (((value : Int) - 1) % 256)
  | .clear => assign register 0
  | .restore => assign register (register : Nat)
  | .push =>
      modify fun state => { state with stack := value :: state.stack }
      assign register value
  | .pop => assign register (← takeTop)

/-- Division by zero gives zero, and so does a power of sixteen or more. -/
def Operation.result (operation : Operation) (left right : Nat) : Int :=
  match operation with
  | .add => (left : Int) + right
  | .subtract => (left : Int) - right
  | .multiply => (left : Int) * right
  | .divide => if right = 0 then 0 else (left / right : Nat)
  | .copy => right
  | .power => if right < 16 then (left ^ right : Nat) else 0
  | .root => truncatedRoot left right

def Form.act (form : Form) (value : Nat) : Exec Unit :=
  match form with
  | .character => do say (String.singleton (← orFault (displayedChar value)))
  | .decimal => say (toString (value : Int))
  | .hexadecimal => say (upperHex value)

def Relation.holds (relation : Relation) (left right : Nat) : Bool :=
  match relation with
  | .equal => left = right
  | .atMost => left ≤ right
  | .atLeast => right ≤ left
  | .differ => left ≠ right

def Condition.holds (condition : Condition) : Exec Bool := do
  let left ← look condition.left
  let right ← look condition.right
  return condition.relation.holds left right

/-- A plain instruction; functions are run by `enter`, a removed one as an empty program. -/
def Plain.act (enter : Program → Exec Unit) : Plain → Exec Unit
  | .pause => pure ()
  | .alter change register => change.act register
  | .selectPage page => modify fun state => { state with page := page }
  | .compute operation target source => do
      let left ← look target
      let right ← look source
      assign target (operation.result left right)
  | .load _ target value => assign target value.toNat
  | .display form register => do form.act (← look register)
  | .displayByte byte => say (String.singleton (Char.ofNat byte.toNat))
  | .undefine name => bindName name none
  | .call name => do
      match (← get).functions.find? name with
      | some body => enter (body.getD .done)
      | none => pure ()
  | .write bytes _ =>
      match String.fromUTF8? ⟨bytes.toArray⟩ with
      | some text => say (text ++ "\n")
      | none => throw (.fault .badEncoding)
  | .exit failed => throw (.exit (some failed.toNat))
  | .ask decimal register => do
      let line ← nextLine (if decimal then "dec> " else "hex> ")
      assign register (← orFault (parseInt (if decimal then 10 else 16) line))

theorem act_call_apply (enter : Program → Exec Unit) (name : Name) (state : State) :
    (Plain.call name).act enter state =
      match state.functions.find? name with
      | some body => enter (body.getD .done) state
      | none => .ok () state := by
  change (match state.functions.find? name with
    | some body => enter (body.getD .done)
    | none => (pure () : Exec Unit)) state = _
  cases state.functions.find? name <;> rfl

def loopWhile (condition : Condition) (body : Exec Unit) : Nat → Exec Unit
  | 0 => throw .unfinished
  | passes + 1 => do
      if ← condition.holds then
        body
        loopWhile condition body passes

def loopUpTo (register : Register) (count : Nat) (body : Exec Unit) : Exec Unit :=
  (List.range' 1 count).forM fun number => do
    assign register (number : Nat)
    body

def Head.act (passes : Nat) (enter : Program → Exec Unit) (body : Program) : Head → Exec Unit
  | .onlyIf condition => do if ← condition.holds then enter body
  | .whileTrue condition => loopWhile condition (enter body) passes
  | .times register => do
      let count ← look register
      (List.range count).forM fun _ => enter body
  | .count register limit => loopUpTo register limit.toNat (enter body)
  | .countTo register limit => do
      let count ← look limit
      loopUpTo register count (enter body)
  | .define name => bindName name (some body)

def Program.walk (passes : Nat) (enter : Program → Exec Unit) : Program → Exec Unit
  | .done => pure ()
  | .plain instruction rest => do
      instruction.act enter
      rest.walk passes enter
  | .block head body rest => do
      head.act passes enter body
      rest.walk passes enter

def Program.runAt (passes : Nat) : Nat → Program → Exec Unit
  | 0, _ => throw .tooDeep
  | depth + 1, program => program.walk passes (runAt passes depth)

def Program.run (program : Program) (limits : Limits) : Exec Unit :=
  program.runAt limits.passes limits.depth

end BitAssembly.Structured
