import BitAssembly.Edition

/-!
# The code table

Each token of the assembly language has a fixed code.  A digit codes as four
bits, a comparison sign as two, and a mnemonic as an operation with its mode.
-/

namespace BitAssembly.Source

abbrev Token := List Char

def sharedCodes : List (String × String) :=
  [("NOP", "000"),
   ("INC", "001000"), ("DEC", "001001"), ("CLZ", "001010"), ("CLI", "001011"),
   ("PUS", "001100"), ("POP", "001101"),
   ("PG1", "010000"), ("PG2", "010001"), ("PG3", "010010"), ("PG4", "010011"),
   ("PG5", "010100"), ("PG6", "010101"), ("PG7", "010110"), ("PG8", "010111"),
   ("ADD", "011000"), ("SUB", "011001"), ("MUL", "011010"), ("DIV", "011011"),
   ("SET", "011100"), ("POW", "011110"), ("ROT", "011111"),
   ("DPU", "10000"), ("DPD", "10001"), ("DPH", "10010"), ("DPI", "10011"),
   ("IF", "101000"), ("REP", "101001"), ("DEF", "101010"), ("UDF", "101011"),
   ("CLL", "101100"), ("FOR", "1011010"), ("VFR", "1011011"), ("WHL", "101110"),
   ("]", "110"),
   ("EXO", "11100"), ("INH", "11110"), ("IND", "11111"),
   ("0", "0000"), ("1", "0001"), ("2", "0010"), ("3", "0011"),
   ("4", "0100"), ("5", "0101"), ("6", "0110"), ("7", "0111"),
   ("8", "1000"), ("9", "1001"), ("a", "1010"), ("b", "1011"),
   ("c", "1100"), ("d", "1101"), ("e", "1110"), ("f", "1111"),
   ("=", "00"), ("<", "01"), (">", "10"), ("!", "11")]

def basicCodes : List (String × String) :=
  [("LDI", "011101"), ("EXE", "11101")]

def extendedCodes : List (String × String) :=
  [("LDI", "01110100"), ("LD2", "01110101"), ("LD3", "01110110"), ("LD4", "01110111"),
   ("DPM", "101111"), ("ERR", "11101")]

def spellTable (table : List (String × String)) : List (Token × List Char) :=
  table.map fun entry => (entry.1.toList, entry.2.toList)

def basicTable : List (Token × List Char) :=
  spellTable (sharedCodes ++ basicCodes)

def extendedTable : List (Token × List Char) :=
  spellTable (sharedCodes ++ extendedCodes)

def codeTable : Edition → List (Token × List Char)
  | .basic => basicTable
  | .extended => extendedTable

def code? (edition : Edition) (token : Token) : Option (List Char) :=
  (codeTable edition).lookup token

theorem mem_codeTable {edition : Edition} {token : Token} {code : List Char}
    (h : code? edition token = some code) : (token, code) ∈ codeTable edition := by
  obtain ⟨before, after, hentry, -⟩ := List.lookup_eq_some_iff.mp h
  rw [hentry]
  exact List.mem_append_right before List.mem_cons_self

end BitAssembly.Source
