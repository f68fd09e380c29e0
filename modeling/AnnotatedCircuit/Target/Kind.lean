import AnnotatedCircuit.Design.Basic

/-!
What a design says about an entity: its value, its type, its module and its kind.
-/

namespace AnnotatedCircuit

/-- The coarse kind of an entity. -/
inductive EntityKind where
  | circuit
  | module
  | externalModule
  | op (tag : OpTag)
  | port
deriving DecidableEq, Repr, Inhabited

namespace Design

variable (d : Design)

/-- The value behind a port, a wire, a register or a node. -/
def entityValue : Entity → Except DesignError (Option ValueId)
  | .circuit | .module _ => .ok none
  | .op o => do
    let op ← d.op o
    match op.kind with
    | .wire .. | .reg .. | .node .. => return op.results.head?
    | _ => return none
  | .port (.module m) i => do return (← d.module m).ports[i]?.map Port.value
  | .port (.inst o) i => do return (← d.op o).results[i]?

/-- The type of the value of an entity, if it has one. -/
def entityType (e : Entity) : Except DesignError (Option SignalType) := do
  match ← d.entityValue e with
  | none => return none
  | some v => some <$> d.valueType v

/-- The module that an entity belongs to; the circuit belongs to the top. -/
def entityModule : Entity → Except DesignError ModuleId
  | .circuit => .ok d.top
  | .module m | .port (.module m) _ => .ok m
  | .op o | .port (.inst o) _ => Op.parent <$> d.op o

def entityKind : Entity → Except DesignError EntityKind
  | .circuit => .ok .circuit
  | .module m => do
    match (← d.module m).kind with
    | .external => return .externalModule
    | .defined => return .module
  | .op o => do return .op (← d.op o).kind.tag
  | .port .. => .ok .port

end Design

end AnnotatedCircuit
