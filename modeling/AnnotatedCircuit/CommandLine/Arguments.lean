import AnnotatedCircuit.OrderedMap

/-!
The arguments of the command line.

A command is followed by options in any order. An option takes its value from the next argument,
which then must not look like an option, or from the rest of the same one; one-letter flags can be
joined. Every option may be given once, except that for verbosity, which may also stand before the
command.
-/

namespace AnnotatedCircuit.CommandLine

inductive Command where
  /-- Lower the notes of a design. -/
  | lower (design : String) (notes options output : Option String)
      (ignoreUnhandled ignoreClassless : Bool)
  /-- List the paths to a module. -/
  | paths (design module : String)
deriving DecidableEq, Repr

inductive Invocation where
  | run (command : Command)
  | help
  /-- The arguments make no command. -/
  | misuse
deriving DecidableEq, Repr

/-- An option with a value. -/
structure ValueOption where
  name : String
  letter : Option Char
  /-- Whether the empty text is a value. -/
  mayBeEmpty : Bool
deriving DecidableEq, Repr

/-- What can be given to a command. -/
structure Grammar where
  values : List ValueOption
  flags : List String
deriving DecidableEq, Repr

def Grammar.lower : Grammar where
  values := [⟨"design", some 'd', false⟩, ⟨"annotations", some 'a', false⟩,
    ⟨"options", none, false⟩, ⟨"output", some 'o', false⟩]
  flags := ["ignore-unhandled", "ignore-classless"]

def Grammar.paths : Grammar where
  values := [⟨"design", some 'd', false⟩, ⟨"module", some 'm', true⟩]
  flags := []

/-- The options before the command. -/
def Grammar.common : Grammar := ⟨[], []⟩

structure Given where
  values : OrderedMap String String
  flags : List String

def Given.empty : Given := ⟨.empty, []⟩

/-- Why no command is run. -/
inductive Stop where
  | help
  | misuse
deriving DecidableEq, Repr

/-- Take a value, the first for its option. -/
def Given.setValue (g : Given) (o : ValueOption) (value : String) : Except Stop Given :=
  if g.values.contains o.name || (value.isEmpty && !o.mayBeEmpty) then .error .misuse
  else .ok { g with values := g.values.insert o.name value }

def Given.setFlag (g : Given) (name : String) : Except Stop Given :=
  if g.flags.contains name then .error .misuse else .ok { g with flags := name :: g.flags }

/-- What an argument gives; an option without value waits for the next argument. -/
inductive Taken where
  | complete (given : Given)
  | waiting (given : Given) (option : ValueOption)

/-- An argument that starts with two dashes. -/
def takeLong (grammar : Grammar) (g : Given) (cs : List Char) : Except Stop Taken :=
  let name := String.ofList (cs.takeWhile (· ≠ '='))
  let value : Option String := match cs.dropWhile (· ≠ '=') with
    | [] => none
    | _ :: v => some (String.ofList v)
  match grammar.values.find? (·.name == name), value with
  | some o, some v => Taken.complete <$> g.setValue o v
  | some o, none => .ok (.waiting g o)
  | none, some _ => .error .misuse
  | none, none =>
    if name = "verbose" then .ok (.complete g)
    else if name = "help" then .error .help
    else if grammar.flags.contains name then Taken.complete <$> g.setFlag name
    else .error .misuse

/-- Letters behind a single dash. -/
def takeLetters (grammar : Grammar) (g : Given) : List Char → Except Stop Taken
  | [] => .ok (.complete g)
  | c :: cs =>
    if c = 'v' then takeLetters grammar g cs
    else if c = 'h' then .error .help
    else match grammar.values.find? (·.letter == some c), cs with
      | some o, [] => .ok (.waiting g o)
      | some o, '=' :: v => Taken.complete <$> g.setValue o (String.ofList v)
      | some o, v => Taken.complete <$> g.setValue o (String.ofList v)
      | none, _ => .error .misuse

/-- Read the arguments of a command. Two dashes alone may only stand at the end. -/
def takeAll (grammar : Grammar) : Given → List String → Except Stop Given
  | g, [] => .ok g
  | g, arg :: rest =>
    match arg.toList with
    | ['-', '-'] => if rest.isEmpty then .ok g else .error .misuse
    | '-' :: c :: cs =>
      match if c = '-' then takeLong grammar g cs else takeLetters grammar g (c :: cs) with
      | .error stop => .error stop
      | .ok (.complete g) => takeAll grammar g rest
      | .ok (.waiting g o) =>
        match rest with
        | [] => .error .misuse
        | value :: rest =>
          if value.startsWith "-" && value ≠ "-" then .error .misuse
          else match g.setValue o value with
            | .error stop => .error stop
            | .ok g => takeAll grammar g rest
    | _ => .error .misuse

def Command.ofLower? (g : Given) : Option Command := do
  return .lower (← g.values.find? "design") (g.values.find? "annotations")
    (g.values.find? "options") (g.values.find? "output") (g.flags.contains "ignore-unhandled")
    (g.flags.contains "ignore-classless")

def Command.ofPaths? (g : Given) : Option Command := do
  return .paths (← g.values.find? "design") (← g.values.find? "module")

/-- The command that options make; the required ones have to be there. -/
def Invocation.ofGiven (complete : Given → Option Command) : Except Stop Given → Invocation
  | .error .help => .help
  | .error .misuse => .misuse
  | .ok g => ((complete g).map .run).getD .misuse

/-- Read all arguments. -/
def Invocation.ofArgs : List String → Invocation
  | [] => .misuse
  | arg :: rest =>
    match arg with
    | "lower" => .ofGiven Command.ofLower? (takeAll .lower .empty rest)
    | "paths" => .ofGiven Command.ofPaths? (takeAll .paths .empty rest)
    | "help" =>
      match rest with
      | [] => .help
      | [topic] => if topic ∈ ["lower", "paths", "help"] then .help else .misuse
      | _ => .misuse
    | "--" => .misuse
    | _ =>
      match takeAll .common .empty [arg] with
      | .error .help => .help
      | .error .misuse => .misuse
      | .ok _ => ofArgs rest

end AnnotatedCircuit.CommandLine
