import BitAssembly.Lint.Check
import BitAssembly.Machine.Direct
import BitAssembly.Program
import BitAssembly.Text.Quoted
import BitAssembly.Workload.Source

/-!
# Workloads

Fixed programs of a given size that exercise both editions.  Each workload gives
a value by which its runs can be compared; what the programs print is dropped.
-/

namespace BitAssembly.Workload

open BitAssembly.Bits
open BitAssembly.Machine
open BitAssembly.Source
open BitAssembly.Text

inductive Measure where
  | absent
  | flag (value : Bool)
  | number (value : Int)
  | text (value : List Char)
  | bytes (value : List UInt8)
  | list (values : List Measure)

def editions : List Edition :=
  [.extended, .basic]

/-- How often a workload of this size repeats what takes `unit` of it: once at least. -/
def repetitions (size unit : Int) : Nat :=
  max 1 (Int.fdiv size unit).toNat

def repeatText (separator text : String) (count : Nat) : String :=
  separator.intercalate (List.replicate count text)

def bitsOf (edition : Edition) (source : String) : List Char :=
  match (build edition source.toList "" []).result with
  | .ok (some bits) => bits
  | _ => []

def runBits (edition : Edition) (bits : List Char) (input : String) : Option Stop × Session :=
  match execute edition .standard false (.start bits false input.toList) with
  | .ok _ session => (none, session)
  | .error stop session => (some stop, session)

/-! ## Reading bits -/

def streamChunk : String :=
  repeatText "" "0110100110010110" 4

def readChunks (count : Int) : Nat → Cursor → List Measure
  | 0, _ => []
  | fuel + 1, cursor =>
      if cursor.atEnd then [.flag true]
      else
        match cursor.peek? count with
        | none => [.flag false]
        | some chars => .text chars :: readChunks count fuel (cursor.advance count)

def streaming (size : Int) : Measure :=
  let cursor := Cursor.ofText (repeatText "" streamChunk (repetitions size 64)).toList
  .list (editions.flatMap fun _ => readChunks 64 (cursor.text.size + 1) cursor)

/-! ## Assembly -/

def assemblyText (edition : Edition) (count : Nat) : String :=
  repeatText " " (assemblySource edition) count

def Measure.ofTokens : Except Fault (Option (List Token)) → Measure
  | .ok (some tokens) => .list (tokens.map .text)
  | .ok none => .absent
  | .error .unexpectedQuote => .text "vq".toList
  | .error _ => .absent

def Measure.ofBits : Except Fault (Option (List Char)) → Measure
  | .ok (some bits) => .text bits
  | _ => .absent

def Measure.ofBytes : Except Fault (List UInt8) → Measure
  | .ok packed => .bytes packed
  | .error _ => .absent

def roughText : Edition → String
  | .basic => ""
  | .extended => "DPI \"bad \\q esc\" \x7bNOP\x7d "

def assembling (size : Int) : Measure :=
  let count := repetitions size 25
  let source := fun edition => assemblyText edition count
  let each := fun (measure : Edition → Measure) => editions.map measure
  .list
    (each (fun edition => .ofBits (build edition (source edition).toList "" []).result)
      ++ each (fun edition =>
        .ofTokens (tokenize edition (roughText edition ++ source edition).toList))
      ++ each (fun edition => .ofTokens (tokenize edition "NOP ; open".toList))
      ++ each (fun edition => .ofBits (build edition "NOP XYZ".toList "" []).result)
      ++ each (fun edition => .ofTokens (tokenize edition "NOP 'x'".toList))
      ++ each (fun edition => .ofBytes (pack (bitsOf edition (source edition)))))

/-! ## Checks -/

def refusedSources : List String :=
  ["INC z ", "INC 00 ", "IF 0 z 1 "]

/-- What a check reached: its position, and with `places` also its line and column. -/
def reached (edition : Edition) (source : String) (narrated places : Bool) : Int :=
  let progress := match Lint.check edition Lint.levelLimit narrated (.start source.toList) with
    | .ok _ progress => progress
    | .error _ progress => progress
  progress.cursor.pos + (if places then (progress.line : Int) + progress.column else 0)

def isRefused (edition : Edition) (source : String) : Bool :=
  match Lint.check edition Lint.levelLimit false (.start source.toList) with
  | .ok _ _ => false
  | .error _ _ => true

def checking (size : Int) : Measure :=
  let count := repetitions size 80
  .number (editions.foldl (fun total edition =>
    let source := repeatText "\n" (checkSource edition) count
    total + reached edition source true true + reached edition source false false
      + (refusedSources.filter (isRefused edition)).length) 0)

/-! ## Running instructions -/

def byteWord (size : Int) : String :=
  String.ofList (hexWidth 2 (min 255 (max 1 size)).toNat)

def interpretSource (edition : Edition) (size : Int) : String :=
  " ".intercalate
    (["LDI e " ++ byteWord size, "REP e ["] ++ plainWords
      ++ ["SET 01", "REP 3 [ MUL 00 ]", "CLI 2", "ADD 02", "SET 13", "]"]
      ++ wideLoads edition ++ ["WHL f < e [ INC f ]", "CLZ f"])

def Measure.ofPages (memory : Memory) : Measure :=
  .list (memory.pages.toList.map fun registers =>
    .list (registers.toList.map fun (value : Nat) => .number value))

def interpreting (size : Int) : Measure :=
  .list (editions.map fun edition =>
    .ofPages (runBits edition (bitsOf edition (interpretSource edition size)) "").2.memory)

/-! ## Blocks -/

def blockSource (edition : Edition) (size : Int) : String :=
  " ".intercalate
    (["DEF 0 [ ADD 01 ADD 01 ]", "DEF 7 [ " ++ bodySource edition ++ " ]", "CLZ d"]
      ++ List.replicate (repetitions size 1) "CLL 0")

def registerSum (memory : Memory) : Nat :=
  (memory.pages.toList.flatMap fun registers => registers.toList).foldl (· + ·) 0

def operandSize (op text : String) : Measure :=
  match skipOperands .extended op.toList ⟨.ofText text.toList, false, []⟩ with
  | .ok chars _ => .number chars.length
  | .error _ _ => .absent

def blocks (size : Int) : Measure :=
  let runs := editions.flatMap fun edition =>
    let memory := (runBits edition (bitsOf edition (blockSource edition size)) "").2.memory
    [.number (registerSum memory), .list (List.map (fun entry => .number entry.1) memory.functions)]
  let operands := [operandSize "010" "000", operandSize "001" "0000000",
    operandSize "111" "00", operandSize "010" "111"]
  .list (runs ++ [.list operands])

/-! ## Input, exits and failures -/

def firstSum (memory : Memory) (count : Nat) : Nat :=
  ((memory.pages[0]).toList.take count).foldl (· + ·) 0

def inputSum (edition : Edition) (bits : List Char) (count : Nat) : Measure :=
  .number (firstSum (runBits edition bits "7\n7\n").2.memory count)

/-- The status of a program that exits, and a negative number for one that fails. -/
def statusOf (edition : Edition) (source : String) : Measure :=
  match (runBits edition (bitsOf edition source) "").1 with
  | some (.exit (some status)) => .number status
  | some (.fault .endOfText) => .number (-2)
  | some (.fault .emptyStack) => .number (-3)
  | _ => .absent

def errorWord : Edition → String
  | .basic => "EXE"
  | .extended => "ERR"

def fileSum (edition : Edition) (saved asked : String) : Measure :=
  let (_, files) := save [] saved (bitsOf edition "IND 0")
  match programBits files asked.toList with
  | .ok bits => inputSum edition bits 1
  | .error _ => .number (-1)

def dialogue (size : Int) : Measure :=
  let once := editions.map (fun edition => inputSum edition (bitsOf edition "INH 0 IND 1") 2)
    ++ editions.flatMap fun edition =>
      [statusOf edition "EXO", statusOf edition (errorWord edition)]
  .list ((List.replicate (repetitions size 1) once).flatten
    ++ editions.map (fun edition => fileSum edition "program" "program")
    ++ editions.map (fun edition => fileSum edition "program" "missing")
    ++ editions.flatMap fun edition => [statusOf edition "INC", statusOf edition "POP 0"])

end BitAssembly.Workload
