import AnnotatedCircuit.Hierarchy.Basic
import AnnotatedCircuit.Attempt
import AnnotatedCircuit.Target.Path

/-!
Target paths resolved to entities of a design.

Each hop has to name an instance in the module that the hop before leads to, and the last one has to
lead to the module of the target. Names inside a module are looked up in tables that are built when
they are first needed, and kept.
-/

namespace AnnotatedCircuit

/-- What the names in modules stand for, as far as it was asked for. -/
structure NameTables where
  tables : OrderedMap ModuleId (List (String × Entity))
deriving Inhabited

namespace NameTables

def empty : NameTables := ⟨.empty⟩

/-- The names of a module: its ports, then its declarations. The first entry of a name counts. -/
def entries (d : Design) (m : ModuleId) : Except DesignError (List (String × Entity)) := do
  let x ← d.module m
  return x.ports.mapIdx (fun i p => (p.name, .port (.module m) i)) ++
    (d.opsIn m).filterMap fun op => op.kind.name?.map fun n => (n, .op op.id)

/-- What a name stands for in a module. -/
def lookup (d : Design) (m : ModuleId) (name : String) : Attempt NameTables (Option Entity) := do
  match (← get).tables.find? m with
  | some es => return OrderedMap.lookup name es
  | none =>
    let es ← .ofDesign (entries d m)
    modify fun t => ⟨t.tables.insert m es⟩
    return OrderedMap.lookup name es

end NameTables

/-- An entity, the part of it that is meant, and the way to it. -/
structure Target where
  entity : Entity
  /-- The number of the part of an aggregate, 0 for all of it. -/
  fieldId : Nat
  /-- The instances passed, outermost first. -/
  route : List OpId
deriving DecidableEq, Repr, Inhabited

namespace Target

def circuit : Target := ⟨.circuit, 0, []⟩

/-- A target is local if no instance was passed on the way to it. -/
def isLocal (t : Target) : Bool := t.route.isEmpty

end Target

namespace TargetPath

variable (d : Design) (h : Hierarchy) (text : String)

def fail {α : Type} (fault : ResolveFault) : Attempt NameTables α :=
  .fail (.unresolved text fault)

/-- The module of a name. -/
def findModule (name : String) : Attempt NameTables ModuleId :=
  match h.named name with
  | .ok m => pure m
  | .error _ => fail text (.noModule name)

/-- Take one hop from the module that is reached, if there is one already. -/
def takeHop (reached : Option ModuleId) (hop : Hop) : Attempt NameTables (OpId × ModuleId) := do
  let m ← findModule h text hop.module
  if let some r := reached then
    if r ≠ m then
      fail text (.brokenRoute hop.module (← .ofDesign (d.moduleName r)))
  match ← NameTables.lookup d m hop.inst with
  | some (.op o) =>
    match (← .ofDesign (d.op o)).kind.child? with
    | some child => return (o, child)
    | none => fail text (.notInstance hop.inst hop.module)
  | _ => fail text (.noInstance hop.inst hop.module)

/-- Take all hops: the instances passed and the module reached. -/
def takeHops (reached : Option ModuleId) :
    List Hop → Attempt NameTables (List OpId × Option ModuleId)
  | [] => pure ([], reached)
  | hop :: hops => do
    let (o, child) ← takeHop d h text reached hop
    let (os, last) ← takeHops (some child) hops
    return (o :: os, last)

/-- What is named in a module; without a name, the module itself. -/
def findEntity (m : ModuleId) (moduleName : String) : Option String → Attempt NameTables Entity
  | none => pure (.module m)
  | some name => do
    match ← NameTables.lookup d m name with
    | some e => return e
    | none => fail text (.noEntity name moduleName)

/-- The first access to an instance selects one of its ports. -/
def selectPort (e : Entity) (accesses : List Access) :
    Attempt NameTables (Entity × List Access) := do
  match e with
  | .op o =>
    match (← .ofDesign (d.op o)).kind, accesses with
    | .inst _ child, .field name :: rest =>
      match (← .ofDesign (d.module child)).portIndex? name with
      | some i => return (.port (.inst o) i, rest)
      | none => fail text (.noPort name)
    | .inst .., .index _ :: _ => fail text .indexedInstance
    | _, _ => return (e, accesses)
  | _ => return (e, accesses)

/-- The number of the part that accesses lead to; without accesses it is 0. -/
def findPart (e : Entity) : List Access → Attempt NameTables Nat
  | [] => pure 0
  | accesses => do
    match ← .ofDesign (d.entityType e) with
    | none => fail text .untyped
    | some t =>
      match ← .ofChecked (t.fieldId? accesses) with
      | none => fail text .noPart
      | some n => return n

/-- The target that a path names; `text` is how the path is written. -/
def resolve (p : TargetPath) : Attempt NameTables Target := do
  if p.circuit ≠ "" ∧ p.circuit ≠ d.name then
    fail text (.wrongCircuit p.circuit d.name)
  match p.module with
  | none => return .circuit
  | some name =>
    let (route, reached) ← takeHops d h text none p.hops
    let m ← findModule h text name
    if let some r := reached then
      if r ≠ m then
        fail text (.wrongLeaf (← .ofDesign (d.moduleName r)) name)
    let e ← findEntity d text m name p.name
    let (entity, accesses) ← selectPort d text e p.accesses
    return ⟨entity, ← findPart d text entity accesses, route⟩

end TargetPath

end AnnotatedCircuit
