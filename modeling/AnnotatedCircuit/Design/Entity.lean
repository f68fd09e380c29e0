import AnnotatedCircuit.Design.Id

/-!
The entities of a design that can be annotated.
-/

namespace AnnotatedCircuit

/-- The holder of an annotated port. -/
inductive PortOwner where
  /-- A port of the module itself. -/
  | module (id : ModuleId)
  /-- The result of an instance for a port of its module. -/
  | inst (id : OpId)
deriving DecidableEq, Repr, Inhabited

inductive Entity where
  | circuit
  | module (id : ModuleId)
  | op (id : OpId)
  | port (owner : PortOwner) (index : Nat)
deriving DecidableEq, Repr, Inhabited

namespace Entity

/-- The operation that an entity is or belongs to. -/
def op? : Entity → Option OpId
  | .op o => some o
  | .port (.inst o) _ => some o
  | _ => none

/-- The entity with its operation exchanged; one without operation stays as it is. -/
def withOp (o : OpId) : Entity → Entity
  | .op _ => .op o
  | .port (.inst _) i => .port (.inst o) i
  | e => e

end Entity

def PortOwner.toJson : PortOwner → Json
  | .module m => .tagged "Module" m.toJson
  | .inst o => .tagged "Instance" o.toJson

def PortOwner.ofInput? (i : Json.Input) : Option PortOwner :=
  match i.alternative? with
  | some ("Module", some content) => (ModuleId.ofInput? content).map .module
  | some ("Instance", some content) => (OpId.ofInput? content).map .inst
  | _ => none

def Entity.toJson : Entity → Json
  | .circuit => .str "Circuit"
  | .module m => .tagged "Module" m.toJson
  | .op o => .tagged "Op" o.toJson
  | .port owner index =>
    .tagged "Port" (.obj [("owner", owner.toJson), ("index", Json.nat index)])

def Entity.ofInput? (i : Json.Input) : Option Entity :=
  match i.tag?, i.alternative? with
  | some "Circuit", _ => some .circuit
  | _, some ("Module", some content) => (ModuleId.ofInput? content).map .module
  | _, some ("Op", some content) => (OpId.ofInput? content).map .op
  | _, some ("Port", some content) =>
    match content.allContentFields? ["owner", "index"] with
    | some [owner, index] => do return .port (← PortOwner.ofInput? owner) (← index.index?)
    | _ => none
  | _, _ => none

end AnnotatedCircuit
