import AnnotatedCircuit.SignalType.FieldId

/-!
Target paths: the text by which an annotation names what it annotates.

`~Circuit|Top/inst:Mod/inst:Mod>name.field[3]` goes from the circuit through instances to a module,
to something named in that module, and on to a part of it. `TargetPath.parse?` reads such a text and
`TargetPath.render` writes it; `TargetPath.canonical` turns the dotted spelling
`Circuit.Module.name` into it.
-/

namespace AnnotatedCircuit

/-- A step through the hierarchy: an instance by its name in the module that holds it. -/
structure Hop where
  module : String
  inst : String
deriving DecidableEq, Repr, Inhabited

structure TargetPath where
  circuit : String
  /-- The instances passed, outermost first. -/
  hops : List Hop
  /-- The module of the target; without it, the circuit is the target. -/
  module : Option String
  /-- What is named in the module; without it, the module is the target. -/
  name : Option String
  accesses : List Access
deriving DecidableEq, Repr, Inhabited

namespace TargetPath

/-- The text before and behind the first `c`. -/
def cut? (c : Char) : List Char → Option (List Char × List Char)
  | [] => none
  | d :: ds =>
    if d = c then some ([], ds)
    else (cut? c ds).map fun (before, behind) => (d :: before, behind)

/-- The pieces between the `c`s; there is one more than there are `c`s. -/
def pieces (c : Char) : List Char → List (List Char)
  | [] => [[]]
  | d :: ds =>
    if d = c then [] :: pieces c ds
    else match pieces c ds with
      | [] => [[d]]
      | p :: ps => (d :: p) :: ps

/-- Replace the first dot, if there is one. -/
def replaceDot (mark : Char) : List Char → List Char
  | [] => []
  | c :: cs => if c = '.' then mark :: cs else c :: replaceDot mark cs

/-- The dotted spelling with its marks: a tilde in front, a bar for the first dot and an angle for
the second. A path that starts with a tilde already, and the empty path, are left alone. -/
def canonicalChars : List Char → List Char
  | [] => []
  | c :: cs => if c = '~' then c :: cs else '~' :: replaceDot '>' (replaceDot '|' (c :: cs))

def canonical (path : String) : String := String.ofList (canonicalChars path.toList)

/-- A word in decimal digits, perhaps behind one plus sign. -/
def index? (cs : List Char) : Option Nat :=
  let ds : List Char := match cs with
    | '+' :: ds => ds
    | ds => ds
  let n := ds.foldl (fun n c => n * 10 + (c.toNat - '0'.toNat)) 0
  if ds ≠ [] ∧ ds.all Char.isDigit ∧ n < Word.limit then some n else none

/-- The access under way, its characters last one first. -/
inductive Pending where
  | nothing
  | field (chars : List Char)
  | index (chars : List Char)

/-- Complete an access. A field needs a name, an index its closing bracket. -/
def Pending.finish? : Pending → Option (List Access)
  | .nothing => some []
  | .field [] => none
  | .field cs => some [.field (String.ofList cs.reverse)]
  | .index _ => none

/-- Read `.field` and `[index]` accesses. -/
def accesses? : Pending → List Char → Option (List Access)
  | p, [] => p.finish?
  | .index cs, c :: rest =>
    if c = ']' then do
      let n ← index? cs.reverse
      return .index n :: (← accesses? .nothing rest)
    else accesses? (.index (c :: cs)) rest
  | p, c :: rest =>
    if c = '.' then do return (← p.finish?) ++ (← accesses? (.field []) rest)
    else if c = '[' then do return (← p.finish?) ++ (← accesses? (.index []) rest)
    else match p with
      | .field cs => accesses? (.field (c :: cs)) rest
      | _ => none

/-- Read `module/instance`, neither part empty. -/
def hop? (cs : List Char) : Option Hop :=
  match cut? '/' cs with
  | some (m, i) => if m = [] ∨ i = [] then none else some ⟨String.ofList m, String.ofList i⟩
  | none => none

/-- Whether a character starts an access. -/
def startsAccess (c : Char) : Bool := c == '.' || c == '['

/-- Read what follows the bar: hops, module, name and accesses. -/
def tail? (circuit : String) (cs : List Char) : Option TargetPath := do
  let ps := pieces ':' cs
  let hops ← ps.dropLast.mapM hop?
  let last := ps.getLastD []
  let base := last.takeWhile (!startsAccess ·)
  let (m, name) := match cut? '>' base with
    | some (m, n) => (m, some n)
    | none => (base, none)
  let accesses ← accesses? .nothing (last.dropWhile (!startsAccess ·))
  if name = some [] ∨ (m = [] ∧ (name ≠ none ∨ hops ≠ [])) ∨ (name = none ∧ accesses ≠ []) then
    none
  else
    some
      { circuit, hops, accesses
        module := if m = [] then none else some (String.ofList m)
        name := name.map String.ofList }

/-- Read a target path. The tilde in front of the circuit may be missing. -/
def parse? (path : String) : Option TargetPath :=
  match path.toList with
  | [] => none
  | cs =>
    let (circuit, rest) := (cut? '|' cs).getD (cs, [])
    let circuit := match circuit with
      | '~' :: name => name
      | name => name
    tail? (String.ofList circuit) rest

def renderAccess : Access → String
  | .field name => "." ++ name
  | .index n => "[" ++ toString n ++ "]"

/-- Write a target path. -/
def render (p : TargetPath) : String :=
  "~" ++ p.circuit ++
    match p.module with
    | none => ""
    | some m =>
      "|" ++ String.join (p.hops.map fun h => h.module ++ "/" ++ h.inst ++ ":") ++ m ++
        (match p.name with
          | none => ""
          | some n => ">" ++ n) ++ String.join (p.accesses.map renderAccess)

end TargetPath

end AnnotatedCircuit
