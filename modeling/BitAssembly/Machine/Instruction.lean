/-!
# Instructions

An instruction with its operands as they were read.  Operand codes outside the
defined ranges have a meaning too, so that every number names an operation.
-/

namespace BitAssembly.Machine

inductive Alteration where
  | increment
  | decrement
  | clear
  /-- The register takes its own number. -/
  | restore
  | push
  | pop
  | keep
deriving DecidableEq, Repr

def Alteration.ofCode : Int → Alteration
  | 0 => .increment
  | 1 => .decrement
  | 2 => .clear
  | 3 => .restore
  | 4 => .push
  | 5 => .pop
  | _ => .keep

inductive Arithmetic where
  | add
  | subtract
  | multiply
  | divide
  | copy
  | power
  | root
  | keep
deriving DecidableEq, Repr

/-- Code five is a load, which has operands of its own. -/
def Arithmetic.ofCode : Int → Arithmetic
  | 0 => .add
  | 1 => .subtract
  | 2 => .multiply
  | 3 => .divide
  | 4 => .copy
  | 6 => .power
  | 7 => .root
  | _ => .keep

inductive Comparison where
  | equal
  | atMost
  | atLeast
  | differ
  | never
deriving DecidableEq, Repr

def Comparison.ofCode : Int → Comparison
  | 0 => .equal
  | 1 => .atMost
  | 2 => .atLeast
  | 3 => .differ
  | _ => .never

def Comparison.holds (comparison : Comparison) (left right : Nat) : Bool :=
  match comparison with
  | .equal => left == right
  | .atMost => left ≤ right
  | .atLeast => right ≤ left
  | .differ => left != right
  | .never => false

inductive Format where
  | character
  | decimal
  | hexadecimal
  | silent
deriving DecidableEq, Repr

def Format.ofCode : Int → Format
  | 0 => .character
  | 1 => .decimal
  | 2 => .hexadecimal
  | 3 => .character
  | _ => .silent

structure Test where
  comparison : Comparison
  left : Int
  right : Int
deriving DecidableEq, Repr

inductive Bound where
  | fixed (value : Int)
  | register (address : Int)
deriving DecidableEq, Repr

/-- The bits of a block, its closing mark included. -/
abbrev Body := Array Char

inductive Instruction where
  | pause
  | alter (alteration : Alteration) (address : Int)
  | selectPage (page : Int)
  | compute (operation : Arithmetic) (target source : Int)
  | load (target value : Int)
  | display (format : Format) (address : Int)
  | displayValue (format : Format) (value : Int)
  | onlyIf (test : Test) (body : Body)
  | times (address : Int) (body : Body)
  | define (name : Int) (body : Body)
  | undefine (name : Int)
  | call (name : Int)
  | count (address : Int) (bound : Bound) (body : Body)
  | whileTrue (test : Test) (body : Body)
  | write (bytes : List UInt8)
  | close
  | exit (status : Nat)
  | ask (radix : Nat) (address : Int)
deriving DecidableEq, Repr

end BitAssembly.Machine
