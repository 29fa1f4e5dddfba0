import BitAssembly.Edition

/-!
# Sources of the workloads

Texts that together use every mnemonic of an edition.
-/

namespace BitAssembly.Workload

def plainWords : List String :=
  ["NOP", "INC 0", "DEC 1", "CLZ 2", "CLI 3", "PUS 4", "POP 5",
   "PG1", "PG2", "PG3", "PG4", "PG5", "PG6", "PG7", "PG8", "PG1",
   "ADD 01", "SUB 23", "MUL 45", "DIV 67", "DIV 40", "SET 89", "POW 23", "ROT 42", "ROT 40",
   "DPU 3", "DPD 1", "DPH 2", "DPI 41"]

def wideLoads : Edition → List String
  | .basic => []
  | .extended => ["LD2 b 00ff", "LD3 c 0000ff", "LD4 d 000000ff"]

/-- A source for checks, one mnemonic to a line, with closing brackets to spare
and a block left open. -/
def checkSource (edition : Edition) : String :=
  let special := match edition with
    | .basic => ["EXE"]
    | .extended => ["LD2 1 00ff", "LD3 2 0000ff", "LD4 3 000000ff", "ERR", "DPM"]
  "\n".intercalate
    (plainWords ++ ["DPI \"Hi\"", "LDI 0 ff"] ++ special
      ++ ["EXO", "INH 0", "IND 1",
          "IF (0 = 1) [ INC 0 ]", "IF (0 < 1) [ INC 0 ]", "IF (0 > 1) [ INC 0 ]",
          "IF (0 ! 1) [ INC 0 ]", "WHL 0 ! 0 [ INC 0 ]", "REP 2 [ INC 0 ]", "DEF 0 [ INC 0 ]",
          "UDF 0", "CLL 0", "FOR 0 05 [ INC 1 ]", "VFR 0 3 [ INC 1 ]", "] ]",
          "REP 0 [ INC 0", "   "])

def assemblySource (edition : Edition) : String :=
  " ".intercalate
    (plainWords
      ++ ["LDI a 20", "POW 2a",
          "IF 0 = 0 [ INC 0 ]", "IF 0 ! 0 [ INC 0 ]", "IF 0 < 1 [ INC 0 ]", "IF 0 > 1 [ INC 0 ]",
          "REP 3 [ INC 0 ]", "FOR 1 04 [ ADD 01 ]", "VFR 1 3 [ ADD 01 ]", "WHL 0 < 5 [ INC 0 ]",
          "CLZ f", "DPI \"h\\n\\t\\r\\a\\b\\f\\v\\'m\"", "DPI 'u\\\\w\\\"z'",
          "; this is a comment ;"]
      ++ wideLoads edition)

def bodySource (edition : Edition) : String :=
  let special := match edition with
    | .basic => ["EXE"]
    | .extended => ["ERR", "DPI \"xy\""]
  " ".intercalate
    (["NOP", "INC 0", "PG1", "ADD 01", "LDI 0 ff", "DPD 0", "DPI 41", "INH 0", "IND 0", "EXO",
      "IF 0 = 0 [ NOP ]", "WHL 0 ! 0 [ NOP ]", "REP 0 [ NOP ]", "FOR 0 01 [ NOP ]",
      "VFR 0 1 [ NOP ]", "CLL 9", "UDF 9"] ++ special)

end BitAssembly.Workload
