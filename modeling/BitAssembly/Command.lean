import BitAssembly.Lint.Check
import BitAssembly.Program
import BitAssembly.Text.Line
import BitAssembly.Text.Quoted

/-!
# Commands

A command line acts on a directory and an input, and gives an output, the files
afterwards, and the way it stopped if it did not end normally.
-/

namespace BitAssembly

open BitAssembly.Machine
open BitAssembly.Text

structure Outcome where
  output : String
  stop : Option Stop
  files : Directory

structure Surroundings where
  edition : Edition
  limits : Limits
  files : Directory
  input : List Char

def helpText : String :=
  "\nCommands \nrun [smbt file] | runs the compiled smbt file\n"
    ++ "compile [smolbit file] [smbt path] | compiles the smolbit script to an ambt file\n\n"

def Surroundings.fault (around : Surroundings) (fault : Fault) : Outcome :=
  ⟨"", some (.fault fault), around.files⟩

def Surroundings.runProgram (around : Surroundings) (program : String) (tracing : Bool) : Outcome :=
  match programBits around.files program.toList with
  | .error fault => around.fault fault
  | .ok bits =>
      match execute around.edition around.limits tracing (.start bits tracing around.input) with
      | .ok _ session => ⟨session.console.output, none, around.files⟩
      | .error stop session => ⟨session.console.output, some stop, around.files⟩

def Surroundings.compileSource (around : Surroundings) (source : List Char) (target : String) :
    Outcome :=
  match Lint.check around.edition Lint.levelLimit false (.start source) with
  | .error stop progress => ⟨progress.output, some stop, around.files⟩
  | .ok _ progress =>
      let built := build around.edition source target around.files
      let stop := match built.result with
        | .ok _ => none
        | .error fault => some (.fault fault)
      ⟨progress.output ++ built.output, stop, built.files⟩

/-- Compiles the source in a file, whose line ends may be of any kind. -/
def Surroundings.compileFile (around : Surroundings) (path target : String) : Outcome :=
  match around.files.find? path with
  | none => around.fault (.noFile (String.ofList (quote path.toList)))
  | some bytes =>
      match String.fromUTF8? ⟨bytes.toArray⟩ with
      | none => around.fault .badEncoding
      | some text => around.compileSource (plainLineEnds text.toList) target

def Surroundings.command (around : Surroundings) : List String → Outcome
  | [] => ⟨helpText, some (.exit none), around.files⟩
  | name :: arguments =>
      if name = "run" then
        match arguments with
        | program :: _ => around.runProgram program false
        | [] => around.fault .noArgument
      else if name = "debugrun" ∧ around.edition = .extended then
        match arguments with
        | program :: _ => around.runProgram program true
        | [] => around.fault .noArgument
      else if name = "compile" then
        match arguments with
        | path :: target :: _ => around.compileFile path target
        | _ => around.fault .noArgument
      else if name = "help" then ⟨helpText, none, around.files⟩
      else ⟨"", none, around.files⟩

end BitAssembly
