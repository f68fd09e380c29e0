import AnnotatedCircuit.CommandLine.Run

/-!
The command line: reads the files, runs the command, prints and writes.
-/

open AnnotatedCircuit CommandLine

/-- The text of a file, or why it cannot be read. -/
def readText (path : String) : IO (Except String String) := do
  try
    return .ok (← IO.FS.readFile path)
  catch e =>
    return .error (toString e)

/-- Write the file of an outcome, if it has one. -/
def writeOutcome (o : Outcome) : IO Outcome := do
  match o.file with
  | none => return o
  | some (path, text) =>
    try
      IO.FS.writeFile path text
      return o
    catch e =>
      return o.writeFailed (toString e)

def main (args : List String) : IO UInt32 := do
  match Invocation.ofArgs args with
  | .help =>
    IO.print usage
    return 0
  | .misuse =>
    IO.eprint usage
    return 2
  | .run command =>
    let files ← command.inputs.mapM fun path => do return (path, ← readText path)
    let read : FileReader := fun path =>
      (OrderedMap.lookup path files).getD (.error "not read")
    let outcome ← writeOutcome (command.run read)
    for warning in outcome.warnings do
      IO.eprintln ("WARN " ++ warning)
    IO.eprint outcome.stderr
    IO.print outcome.stdout
    return outcome.exitCode.toUInt32
