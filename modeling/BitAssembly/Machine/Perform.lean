import BitAssembly.Machine.Session

/-!
# Performing an instruction

Performing changes the memory and the console and never the place in the text
at hand.  The bodies of blocks are run by the argument `call`.
-/

namespace BitAssembly.Machine

open BitAssembly.Text

/-- The root of a value, computed in double precision and truncated; the root of
degree zero is zero. -/
def truncatedRoot (value degree : Nat) : Nat :=
  if degree = 0 then 0
  else (Float.pow (Float.ofNat value) (1.0 / Float.ofNat degree)).toUInt64.toNat

/-- Division by zero gives zero, and so does a power of sixteen or more. -/
def Arithmetic.apply (operation : Arithmetic) (left right : Nat) : Int :=
  match operation with
  | .add => (left : Int) + right
  | .subtract => (left : Int) - right
  | .multiply => (left : Int) * right
  | .divide => if right = 0 then 0 else (left / right : Nat)
  | .copy => right
  | .power => if right < 16 then Nat.pow left right else 0
  | .root => truncatedRoot left right
  | .keep => left

/-- Counting up and down keeps the lowest eight bits only. -/
def alter (alteration : Alteration) (address : Int) : Run Unit := do
  let value ← getRegister address
  match alteration with
  | .increment => setRegister address ((value + 1) % 256 : Nat)
  | .decrement => setRegister address (((value : Int) - 1) % 256)
  | .clear => setRegister address 0
  | .restore => setRegister address address
  | .push =>
      push value
      setRegister address value
  | .pop => setRegister address (← pop)
  | .keep => setRegister address value

def compute (operation : Arithmetic) (target source : Int) : Run Unit := do
  let left ← getRegister target
  let right ← getRegister source
  setRegister target (operation.apply left right)

def display (format : Format) (value : Int) : Run Unit :=
  match format with
  | .character => do
      let c ← ofExcept (displayedChar value)
      print (String.singleton c)
  | .decimal => print (toString value)
  | .hexadecimal => print (upperHex value)
  | .silent => pure ()

def Test.holds (test : Test) : Run Bool := do
  let left ← getRegister test.left
  let right ← getRegister test.right
  return test.comparison.holds left right

def askPrompt (radix : Nat) : String :=
  if radix = 16 then "hex> " else "dec> "

def ask (radix : Nat) (address : Int) : Run Unit := do
  let line ← askLine (askPrompt radix)
  setRegister address (← ofExcept (parseInt radix line))

def write (bytes : List UInt8) : Run Unit :=
  match String.fromUTF8? ⟨bytes.toArray⟩ with
  | some text => print (text ++ "\n")
  | none => fail .badEncoding

def repeatTimes (action : Run Unit) : Nat → Run Unit
  | 0 => pure ()
  | count + 1 => do
      action
      repeatTimes action count

def countFrom (action : Run Unit) (address : Int) (next : Nat) : Nat → Run Unit
  | 0 => pure ()
  | count + 1 => do
      setRegister address next
      action
      countFrom action address (next + 1) count

def repeatWhile (test : Test) (action : Run Unit) : Nat → Run Unit
  | 0 => throw .unfinished
  | passes + 1 => do
      if ← test.holds then
        action
        repeatWhile test action passes

def Bound.passes : Bound → Run Nat
  | .fixed value => pure value.toNat
  | .register address => getRegister address

def perform (passes : Nat) (call : Body → Run Unit) : Instruction → Run Unit
  | .pause => pure ()
  | .alter alteration address => alter alteration address
  | .selectPage page => selectPage page
  | .compute operation target source => compute operation target source
  | .load target value => setRegister target value
  | .display format address => do display format (← getRegister address)
  | .displayValue format value => display format value
  | .onlyIf test body => do if ← test.holds then call body
  | .times address body => do repeatTimes (call body) (← getRegister address)
  | .define name body => define name body
  | .undefine name => define name #[]
  | .call name => do
      match (← get).memory.functions.find? name with
      | some body => call body
      | none => pure ()
  | .count address bound body => do countFrom (call body) address 1 (← bound.passes)
  | .whileTrue test body => repeatWhile test (call body) passes
  | .write bytes => write bytes
  | .close => pure ()
  | .exit status => throw (.exit (some status))
  | .ask radix address => ask radix address

end BitAssembly.Machine
