/-!
# Editions of the instruction set

The basic edition loads one byte at a time and writes a quoted text as one
immediate display per byte.  The extended edition adds loads of two to four
bytes and a length-prefixed text instruction.
-/

namespace BitAssembly

inductive Edition where
  | basic
  | extended
deriving DecidableEq, Repr

end BitAssembly
