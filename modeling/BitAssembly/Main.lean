import BitAssembly.Command

/-!
# The command line

Files and the console of the operating system around a command.  Only files that
are named on the command line take part.
-/

namespace BitAssembly

def readFile? (name : String) : IO (Option (List UInt8)) := do
  try
    return some (← IO.FS.readBinFile name).toList
  catch _ =>
    return none

def readFiles (names : List String) : IO Directory :=
  names.foldlM (fun files name => do
    match ← readFile? name with
    | some bytes => return files.insert name bytes
    | none => return files) []

def writeFiles (before after : Directory) : IO Unit :=
  List.forM after fun (name, bytes) =>
    if before.find? name = some bytes then pure ()
    else IO.FS.writeBinFile name ⟨bytes.toArray⟩

def reportStop : Option Stop → IO UInt32
  | none => return 0
  | some (.exit status) => return (status.getD 0).toUInt32
  | some (.fault fault) => do
      IO.eprintln (fault.message.getD "text cannot be encoded or decoded")
      return 1
  | some .tooDeep => do
      IO.eprintln "blocks are nested too deep"
      return 1
  | some .unfinished => do
      IO.eprintln "a loop was given up"
      return 1

/-- Runs a command on the input so far.  When a line is missing, one more is read
and the command is run again, of which only output that is new is shown. -/
partial def converse (around : Surroundings) (arguments : List String) (shown : Nat) :
    IO UInt32 := do
  let outcome := around.command arguments
  let output := outcome.output.toList
  (← IO.getStdout).putStr (String.ofList (output.drop shown))
  (← IO.getStdout).flush
  if outcome.stop = some (.fault .endOfInput) then
    let line ← (← IO.getStdin).getLine
    if !line.isEmpty then
      let input := around.input ++ line.toList
      return ← converse { around with input := input } arguments output.length
  writeFiles around.files outcome.files
  reportStop outcome.stop

end BitAssembly

def main (arguments : List String) : IO UInt32 := do
  let files ← BitAssembly.readFiles (arguments.drop 1)
  BitAssembly.converse ⟨.extended, .standard, files, []⟩ arguments 0
