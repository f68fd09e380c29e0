import AnnotatedCircuit.CommandLine.Arguments
import AnnotatedCircuit.Json.Reader
import AnnotatedCircuit.Lowering.Run

/-!
What the commands do, as functions of the files that they read.

Reading and writing are left to the caller: `Command.run` gets a reader and answers what to print,
what to write, and the exit code, and `Outcome.writeFailed` says what follows if writing fails.
-/

namespace AnnotatedCircuit.CommandLine

structure Outcome where
  /-- 0 for success, 1 for failures of the lowering or an unknown module, 3 for files that cannot be
  used, 101 for an overflow. -/
  exitCode : Nat := 0
  stdout : String := ""
  stderr : String := ""
  /-- What is logged on the way, before anything else is printed. -/
  warnings : List String := []
  /-- The file to write and its text. -/
  file : Option (String × String) := none
deriving DecidableEq, Repr, Inhabited

namespace Outcome

def errorLine (message : String) : String := "Error: " ++ message ++ "\n"

def failed (exitCode : Nat) (message : String) : Outcome :=
  { exitCode, stderr := errorLine message }

/-- The outcome if the file cannot be written. -/
def writeFailed (o : Outcome) (reason : String) : Outcome :=
  match o.file with
  | none => o
  | some (path, _) =>
    { o with
      exitCode := 3
      stderr := o.stderr ++ errorLine ("failed to write '" ++ path ++ "': " ++ reason)
      file := none }

end Outcome

/-- A reader of files, with the reason if a file cannot be read. -/
abbrev FileReader := String → Except String String

/-- Read a file and decode it; `what` says what it should hold. -/
def readAs {α : Type} (read : FileReader) (decode : Json.Input → Option α) (what path : String) :
    Except String α :=
  match read path with
  | .error reason => .error ("failed to read " ++ what ++ " '" ++ path ++ "': " ++ reason)
  | .ok text =>
    match Json.Input.parse? text with
    | none => .error ("failed to parse " ++ what ++ " '" ++ path ++ "': malformed text")
    | some i =>
      match decode i with
      | none => .error ("failed to parse " ++ what ++ " '" ++ path ++ "': unexpected content")
      | some a => .ok a

/-- Read a design and check its structure. -/
def readDesign (read : FileReader) (path : String) : Except String Design := do
  let d ← readAs read Design.ofInput? "design" path
  match d.check with
  | .ok () => return d
  | .error e => throw ("inconsistent design '" ++ path ++ "': " ++ e.message)

/-- What is printed about a lowering. -/
def reportText (r : Report) : String :=
  r.statistics.toJson.pretty ++ "\n" ++
    if r.succeeded then "" else
      "Annotation lowering failed with " ++ toString r.diagnostics.length ++ " error(s):\n" ++
        String.join (r.diagnostics.map fun d => d.text ++ "\n")

/-- The design and the options of a lowering, from the files named. -/
def lowerInputs (read : FileReader) (design : String) (notes options : Option String)
    (ignoreUnhandled ignoreClassless : Bool) : Except String (Design × LowerOptions) := do
  let d ← readDesign read design
  let further ← match notes with
    | none => pure []
    | some path => readAs read (Json.Input.list? Note.ofInput?) "annotations" path
  let o ← match options with
    | none => pure {}
    | some path => readAs read LowerOptions.ofInput? "options" path
  return ({ d with pending := d.pending ++ further },
    { o with
      ignoreUnhandled := o.ignoreUnhandled || ignoreUnhandled
      ignoreClassless := o.ignoreClassless || ignoreClassless })

/-- Lower a design and print or write it. Options given as flags add to those in the file. -/
def runLower (read : FileReader) (design : String) (notes options output : Option String)
    (ignoreUnhandled ignoreClassless : Bool) : Outcome :=
  match lowerInputs read design notes options ignoreUnhandled ignoreClassless with
  | .error message => .failed 3 message
  | .ok (d, o) =>
    match d.lower o with
    | .error _ => { exitCode := 101 }
    | .ok (report, d) =>
      let text := d.toJson.pretty
      let outcome : Outcome :=
        { exitCode := if report.succeeded then 0 else 1
          stderr := reportText report
          warnings := report.diagnostics.map fun x => x.text }
      match output with
      | none => { outcome with stdout := text ++ "\n" }
      | some path => { outcome with file := some (path, text) }

/-- Write paths one a line, up to the first that cannot be written. -/
def pathLines (d : Design) : List InstPath → Outcome
  | [] => {}
  | p :: ps =>
    match d.renderPath p with
    | .error e => .failed 1 e.message
    | .ok line =>
      let o := pathLines d ps
      { o with stdout := line ++ "\n" ++ o.stdout }

/-- List the paths to a module. -/
def runPaths (read : FileReader) (design moduleName : String) : Outcome :=
  match readDesign read design with
  | .error message => .failed 3 message
  | .ok d =>
    match d.moduleNamed? moduleName with
    | none => .failed 1 ("no module named '" ++ moduleName ++ "'")
    | some m =>
      match Hierarchy.ofDesign d with
      | .error e => .failed 1 e.message
      | .ok h => pathLines d ((PathTable.ofHierarchy h).paths m).1

def Command.run (read : FileReader) : Command → Outcome
  | .lower design notes options output ignoreUnhandled ignoreClassless =>
    runLower read design notes options output ignoreUnhandled ignoreClassless
  | .paths design m => runPaths read design m

/-- The files that a command may read. -/
def Command.inputs : Command → List String
  | .lower design notes options .. => design :: notes.toList ++ options.toList
  | .paths design _ => [design]

def usage : String :=
  "Usage: [-v] lower -d <DESIGN> [-a <ANNOTATIONS>] [--options <OPTIONS>]\n" ++
  "            [--ignore-unhandled] [--ignore-classless] [-o <OUTPUT>]\n" ++
  "       [-v] paths -d <DESIGN> -m <MODULE>\n"

end AnnotatedCircuit.CommandLine
