import BitAssembly.Bits.Bytes
import BitAssembly.Machine.Execute
import BitAssembly.SortedTable
import BitAssembly.Source.Assembly

/-!
# Programs and program files

A program is given as a source, as bits, or by the name of a file.
-/

namespace BitAssembly

open BitAssembly.Bits
open BitAssembly.Machine
open BitAssembly.Source
open BitAssembly.Text

abbrev Directory := SortedTable String (List UInt8)

def programBits (files : Directory) (program : List Char) : Except Fault (List Char) :=
  if program.all isBit then .ok program
  else
    match files.find? (String.ofList program) with
    | some bytes => .ok (unpack bytes)
    | none => .error .badProgram

structure Build where
  output : String
  /-- The bits; none if a token had no code. -/
  result : Except Fault (Option (List Char))
  files : Directory

/-- Saves bits under a name; the file is there, empty, before the bytes are made. -/
def save (files : Directory) (name : String) (bits : List Char) : Except Fault Unit × Directory :=
  match pack bits with
  | .ok bytes => (.ok (), files.insert name bytes)
  | .error fault => (.error fault, files.insert name [])

def build (edition : Edition) (source : List Char) (name : String) (files : Directory) : Build :=
  match assemble edition source with
  | .error fault => ⟨"", .error fault, files⟩
  | .ok assembly =>
      match assembly.bits? with
      | .ok (some bits) =>
          if name.isEmpty then ⟨assembly.report, .ok (some bits), files⟩
          else
            let (saved, after) := save files name bits
            ⟨assembly.report, saved.map fun _ => some bits, after⟩
      | result => ⟨assembly.report, result, files⟩

def Build.program (result : Build) : Except Fault (List Char) :=
  match result.result with
  | .ok (some bits) => .ok bits
  | .ok none => .error .noProgram
  | .error fault => .error fault

def runSource (edition : Edition) (limits : Limits) (source : List Char) : Run Unit := do
  let built := build edition source "" []
  print built.output
  match built.result with
  | .ok (some bits) => onCursor (.ofText bits) (execute edition limits false)
  | .ok none => fail .noBits
  | .error fault => fail fault

end BitAssembly
