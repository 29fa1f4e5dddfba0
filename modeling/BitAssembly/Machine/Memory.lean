import BitAssembly.Fault
import BitAssembly.Machine.Instruction
import BitAssembly.SortedTable
import BitAssembly.Text.Window

/-!
# The state of a machine

Eight pages of sixteen registers, one of them selected, a stack, and a table of
functions.  Registers hold 32-bit values, and the last register of every page
is one and the same.
-/

namespace BitAssembly.Machine

open BitAssembly.Text

structure Memory where
  pages : Vector (Vector Nat 16) 8
  /-- The selected page, which may be any number. -/
  page : Int
  stack : List Nat
  functions : SortedTable Int Body
deriving DecidableEq, Repr

/-- Every register holds its own number. -/
def Memory.initial : Memory :=
  ⟨Vector.replicate 8 (Vector.ofFn fun address => address.val), 0, [], []⟩

def wrap (value : Int) : Nat :=
  (value % 0x100000000).toNat

theorem wrap_lt (value : Int) : wrap value < 0x100000000 := by
  unfold wrap
  omega

theorem wrap_natCast {value : Nat} (h : value < 0x100000000) : wrap value = value := by
  unfold wrap
  omega

def Memory.page? (memory : Memory) : Option (Fin 8) :=
  index? 8 memory.page

def Memory.register? (memory : Memory) (address : Int) : Option Nat :=
  match memory.page?, index? 16 address with
  | some page, some slot => some (memory.pages[page][slot])
  | _, _ => none

def shareLast (pages : Vector (Vector Nat 16) 8) (page : Fin 8) : Vector (Vector Nat 16) 8 :=
  let last := pages[page][15]
  pages.map fun registers => registers.set 15 last

def Memory.store (memory : Memory) (address value : Int) : Except Fault Memory :=
  match memory.page? with
  | none => .error .noRegister
  | some page =>
      match index? 16 address with
      | none => .error .noTarget
      | some slot =>
          let registers := memory.pages[page].set slot (wrap value)
          .ok { memory with pages := shareLast (memory.pages.set page registers) page }

end BitAssembly.Machine
