import AnnotatedCircuit.Design.Error
import AnnotatedCircuit.NameSupply
import AnnotatedCircuit.Note.Attachments
import AnnotatedCircuit.SignalType.Basic

/-!
Designs: modules with ports and bodies of operations, the values that these define, and the notes
and anchors on them.

Modules, operations, values and anchors live in tables and are named by their place there. A removed
operation leaves a hole, so that no identity is given out twice.
-/

namespace AnnotatedCircuit

/-- What an operation does. -/
inductive OpKind where
  /-- An instance of a module, with one result for each of its ports. -/
  | inst (name : String) (child : ModuleId)
  | wire (name : String) (type : SignalType)
  | reg (name : String) (type : SignalType)
  /-- A named copy of a value. -/
  | node (name : String) (input : ValueId)
  | connect (dest src : ValueId)
  /-- A reference to a value. -/
  | refSend (base : ValueId)
  /-- The value behind a reference. -/
  | refResolve (reference : ValueId)
deriving DecidableEq, Inhabited

/-- The sort of an operation. -/
inductive OpTag where
  | inst
  | wire
  | reg
  | node
  | connect
  | refSend
  | refResolve
deriving DecidableEq, Repr, Inhabited

namespace OpKind

def tag : OpKind → OpTag
  | inst .. => .inst
  | wire .. => .wire
  | reg .. => .reg
  | node .. => .node
  | connect .. => .connect
  | refSend _ => .refSend
  | refResolve _ => .refResolve

/-- The name of a declaration. -/
def name? : OpKind → Option String
  | inst n _ | wire n _ | reg n _ | node n _ => some n
  | _ => none

/-- The values used, the destination of a connection first. -/
def operands : OpKind → List ValueId
  | node _ v | refSend v | refResolve v => [v]
  | connect dest src => [dest, src]
  | _ => []

/-- Exchange the values used. -/
def mapOperands (f : ValueId → ValueId) : OpKind → OpKind
  | node n v => .node n (f v)
  | connect dest src => .connect (f dest) (f src)
  | refSend v => .refSend (f v)
  | refResolve v => .refResolve (f v)
  | k => k

/-- The module that an instance instantiates. -/
def child? : OpKind → Option ModuleId
  | inst _ m => some m
  | _ => none

@[simp] theorem operands_mapOperands (f : ValueId → ValueId) (k : OpKind) :
    (k.mapOperands f).operands = k.operands.map f := by
  cases k <;> rfl

@[simp] theorem name?_mapOperands (f : ValueId → ValueId) (k : OpKind) :
    (k.mapOperands f).name? = k.name? := by
  cases k <;> rfl

@[simp] theorem child?_mapOperands (f : ValueId → ValueId) (k : OpKind) :
    (k.mapOperands f).child? = k.child? := by
  cases k <;> rfl

@[simp] theorem tag_mapOperands (f : ValueId → ValueId) (k : OpKind) :
    (k.mapOperands f).tag = k.tag := by
  cases k <;> rfl

@[simp] theorem mapOperands_id (k : OpKind) : k.mapOperands id = k := by
  cases k <;> rfl

@[simp] theorem mapOperands_mapOperands (f g : ValueId → ValueId) (k : OpKind) :
    (k.mapOperands f).mapOperands g = k.mapOperands (g ∘ f) := by
  cases k <;> rfl

end OpKind

structure Op where
  id : OpId
  /-- The module whose body holds the operation. -/
  parent : ModuleId
  kind : OpKind
  results : List ValueId
deriving DecidableEq, Inhabited

inductive ModuleKind where
  /-- A module with a body. -/
  | defined
  /-- A module that is only declared. -/
  | external
deriving DecidableEq, Repr, Inhabited

/-- The signature of a port. -/
structure PortDecl where
  name : String
  type : SignalType
  direction : Direction
deriving DecidableEq, Inhabited

/-- A port, with the value that it defines inside its module. -/
structure Port extends PortDecl where
  value : ValueId
deriving DecidableEq, Inhabited

structure Module where
  id : ModuleId
  name : String
  kind : ModuleKind
  ports : List Port
  /-- The operations in program order. -/
  body : List OpId
deriving DecidableEq, Inhabited

namespace Module

def empty (id : ModuleId) (name : String) (kind : ModuleKind) : Module := ⟨id, name, kind, [], []⟩

/-- The place of the first port of a name. -/
def portIndex? (m : Module) (name : String) : Option Nat := m.ports.findIdx? (·.name == name)

end Module

/-- Where a value comes from. -/
inductive ValueOrigin where
  | port (module : ModuleId) (index : Nat)
  | result (op : OpId) (index : Nat)
deriving DecidableEq, Repr, Inhabited

structure Value where
  type : SignalType
  origin : ValueOrigin
deriving DecidableEq, Inhabited

/-- An instance named by the name of the module that holds it and by its own. -/
structure PathStep where
  module : String
  name : String
deriving DecidableEq, Repr, Inhabited

/-- A named path of instances down to a leaf module. -/
structure Anchor where
  id : AnchorId
  name : String
  /-- Outermost first. -/
  path : List PathStep
  leaf : String
deriving DecidableEq, Repr, Inhabited

namespace Anchor

def text (a : Anchor) : String :=
  a.name ++ ": " ++ String.join (a.path.map fun s => s.module ++ "/" ++ s.name ++ ":") ++ a.leaf

end Anchor

structure Design where
  /-- The name of the circuit. -/
  name : String
  top : ModuleId
  modules : List Module
  ops : List (Option Op)
  values : List Value
  /-- The notes that are still to be lowered. -/
  pending : List Note
  attachments : Attachments
  anchors : List Anchor
  /-- The names of modules and anchors. -/
  symbols : NameSupply
deriving Inhabited

namespace Design

/-- A design with an empty top module, named like the circuit. -/
def new (name : String) : Design where
  name := name
  top := ⟨0⟩
  modules := [.empty ⟨0⟩ name .defined]
  ops := []
  values := []
  pending := []
  attachments := .empty
  anchors := []
  symbols := .ofNames [name]

variable (d : Design)

def module? (m : ModuleId) : Option Module := d.modules[m.index]?

def op? (o : OpId) : Option Op := d.ops[o.index]?.join

def value? (v : ValueId) : Option Value := d.values[v.index]?

def anchor? (a : AnchorId) : Option Anchor := d.anchors[a.index]?

def anchorNamed? (name : String) : Option Anchor := d.anchors.find? (·.name == name)

/-- The first module of a name. -/
def moduleNamed? (name : String) : Option ModuleId :=
  (d.modules.find? (·.name == name)).map Module.id

def module (m : ModuleId) : Except DesignError Module :=
  match d.module? m with
  | some x => .ok x
  | none => .error (.unknownModule m)

def op (o : OpId) : Except DesignError Op :=
  match d.op? o with
  | some x => .ok x
  | none => .error (.unknownOp o)

def value (v : ValueId) : Except DesignError Value :=
  match d.value? v with
  | some x => .ok x
  | none => .error (.unknownValue v)

def moduleName (m : ModuleId) : Except DesignError String := Module.name <$> d.module m

def valueType (v : ValueId) : Except DesignError SignalType := Value.type <$> d.value v

/-- The module in whose body a value can be used. -/
def valueModule (v : ValueId) : Except DesignError ModuleId := do
  match (← d.value v).origin with
  | .port m _ => return m
  | .result o _ => Op.parent <$> d.op o

/-- The operations of a body that are not removed. -/
def opsIn (m : ModuleId) : List Op := (((d.module? m).map Module.body).getD []).filterMap d.op?

/-- The instances of a body. -/
def instancesIn (m : ModuleId) : List Op := (d.opsIn m).filter (·.kind.child?.isSome)

/-- All operations that are not removed. -/
def liveOps : List Op := d.ops.filterMap id

/-- The names taken in a module, those of its ports and of its declarations. -/
def namesIn (m : ModuleId) : Except DesignError NameSupply := do
  let x ← d.module m
  return .ofNames (x.ports.map (·.name) ++ (d.opsIn m).filterMap (·.kind.name?))

end Design

end AnnotatedCircuit
