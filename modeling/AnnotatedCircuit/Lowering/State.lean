import AnnotatedCircuit.AnchorPool
import AnnotatedCircuit.Hierarchy.Paths
import AnnotatedCircuit.Target.Resolve
import AnnotatedCircuit.Wiring.Plan

/-!
The state of a lowering and the basic steps on it.
-/

namespace AnnotatedCircuit

/-- What was collected under the name of a pin. -/
structure Pin where
  source : Option ValueId := none
  sinks : List ValueId := []
deriving DecidableEq, Repr, Inhabited

structure LowerState where
  design : Design
  table : PathTable
  names : NameTables
  pool : AnchorPool
  /-- The connections asked for so far. -/
  requests : List WireRequest
  /-- The pins, in the order of their first accepted endpoint. -/
  pins : OrderedMap String Pin
  /-- The notes made while the current one is lowered; they come next. -/
  spawned : List Note
  /-- The number of notes made so far. -/
  added : Nat
  /-- The number of notes whose class had no handler. -/
  unhandled : Nat
deriving Inhabited

abbrev Lowering := Attempt LowerState

namespace LowerState

def start (d : Design) (h : Hierarchy) : LowerState :=
  ⟨d, .ofHierarchy h, .empty, .empty, [], .empty, [], 0, 0⟩

end LowerState

namespace Lowering

/-- A question to the design. -/
def ask {α : Type} (question : Design → Except DesignError α) : Lowering α := do
  .ofDesign (question (← get).design)

/-- Let a note be lowered right after the current one, before all others. -/
def spawn (n : Note) : Lowering Unit :=
  modify fun s => { s with spawned := s.spawned ++ [n], added := s.added + 1 }

/-- Ask for a connection once all notes are lowered. -/
def request (r : WireRequest) : Lowering Unit :=
  modify fun s => { s with requests := s.requests ++ [r] }

/-- The anchor for a route down to a leaf module, by its name. -/
def anchorName (route : List OpId) (leaf : ModuleId) : Lowering String := do
  let a ← Attempt.within (fun s : LowerState => (s.pool, s.design))
    (fun (pool, design) s => { s with pool, design }) (AnchorPool.internRoute route leaf)
  match (← get).design.anchor? a with
  | some anchor => return anchor.name
  | none => .fail (.design (.inconsistent (.unregisteredAnchor a)))

/-- The target that a path names, in either spelling. -/
def locatePath (path : String) : Lowering Target := do
  let text := TargetPath.canonical path
  match TargetPath.parse? text with
  | none => .fail (.unreadablePath path)
  | some p =>
    let s ← get
    Attempt.within LowerState.names (fun names s => { s with names })
      (p.resolve s.design s.table.hierarchy text)

/-- The target named by the target field, which has to be a string. -/
def locate (n : Note) : Lowering Target :=
  match n.str? Note.targetField with
  | some path => locatePath path
  | none => .fail (.unresolved "" .noTarget)

/-- The target named by the target field if there is one, else the circuit. -/
def locateIfGiven (n : Note) : Lowering Target :=
  if n.fields.contains Note.targetField then locate n else pure .circuit

end Lowering

end AnnotatedCircuit
