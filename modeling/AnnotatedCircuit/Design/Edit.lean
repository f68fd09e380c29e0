import AnnotatedCircuit.Design.Check

/-!
Building and changing designs.

An `Edit` runs on a design and either answers or reports an error; in both cases it leaves a design
behind. New modules, operations, values and anchors are entered at the end of their tables. Every
look-up is a step that may fail, also behind changes that were made already.
-/

namespace AnnotatedCircuit

abbrev Edit := EStateM DesignError Design

/-- Answer a question about the design as it is. -/
def Edit.ask {α : Type} (question : Design → Except DesignError α) : Edit α := fun d =>
  match question d with
  | .ok a => .ok a d
  | .error e => .error e d

namespace Design

/-- Change one module. -/
def modifyModule (d : Design) (m : ModuleId) (f : Module → Module) : Design :=
  { d with modules := d.modules.modify m.index f }

/-- Enter an operation with fresh results of the given types, in no body yet. -/
def enterOp (d : Design) (parent : ModuleId) (kind : OpKind) (types : List SignalType) :
    OpId × Design :=
  let o : OpId := ⟨d.ops.length⟩
  let results : List ValueId := types.mapIdx fun i _ => ⟨d.values.length + i⟩
  (o, { d with
    ops := d.ops ++ [some ⟨o, parent, kind, results⟩]
    values := d.values ++ types.mapIdx fun i t => ⟨t, .result o i⟩ })

/-- Exchange the uses of a value in the operations of a body, and count them. -/
def redirect (old new : ValueId) (body : List OpId) (ops : List (Option Op)) :
    Nat × List (Option Op) :=
  body.foldl (fun (n, ops) o =>
    match ops[o.index]?.join with
    | none => (n, ops)
    | some op =>
      let kind := op.kind.mapOperands fun v => if v = old then new else v
      (n + op.kind.operands.count old, ops.set o.index (some { op with kind }))) (0, ops)

/-- Enter `new` behind the first `old`, or at the end. -/
def insertBehind (old new : OpId) : List OpId → List OpId
  | [] => [new]
  | o :: os => if o = old then o :: new :: os else o :: insertBehind old new os

/-- Register an anchor under a free name derived from `hint`. -/
def newAnchor (d : Design) (hint : String) (path : List PathStep) (leaf : String) :
    Except Overflow (AnchorId × Design) := do
  let (name, symbols) ← d.symbols.fresh hint
  let a : AnchorId := ⟨d.anchors.length⟩
  return (a, { d with symbols, anchors := d.anchors ++ [⟨a, name, path, leaf⟩] })

end Design

namespace Edit

open Design

/-- Add an empty module under a name that no module has. -/
def newModule (name : String) (kind : ModuleKind) : Edit ModuleId := do
  let d ← get
  if (d.moduleNamed? name).isSome then
    throw (.inconsistent (.duplicateModule name))
  let m : ModuleId := ⟨d.modules.length⟩
  set { d with modules := d.modules ++ [Module.empty m name kind], symbols := d.symbols.add name }
  return m

/-- Change a module, which has to be there. -/
def changeModule (m : ModuleId) (f : Module → Module) : Edit Unit := do
  let _ ← ask (·.module m)
  modify (·.modifyModule m f)

/-- Enter a value. Its port or operation comes afterwards. -/
def newValue (type : SignalType) (origin : ValueOrigin) : Edit ValueId :=
  modifyGet fun d => (⟨d.values.length⟩, { d with values := d.values ++ [⟨type, origin⟩] })

/-- The first of some values. Having none is an index out of range where there has to be one. -/
def firstOf (values : List ValueId) (otherwise : DesignError) : Edit ValueId :=
  match values with
  | v :: _ => pure v
  | [] => throw otherwise

/-- Add ports to a module, the first of them with the number `base`. -/
def pushPorts (m : ModuleId) (base : Nat) : List PortDecl → Edit (List ValueId)
  | [] => return []
  | p :: ps => do
    let v ← newValue p.type (.port m base)
    changeModule m fun x => { x with ports := x.ports ++ [⟨p, v⟩] }
    return v :: (← pushPorts m (base + 1) ps)

/-- Add ports to a module, behind those that it has. -/
def growPorts (m : ModuleId) (ports : List PortDecl) : Edit (List ValueId) := do
  let x ← ask (·.module m)
  pushPorts m x.ports.length ports

/-- Add a port to a module that has no instances yet. -/
def newPort (m : ModuleId) (port : PortDecl) : Edit ValueId := do
  let d ← get
  if d.liveOps.any fun op => op.kind.child? == some m then
    throw (.inconsistent (.portOfInstantiated port.name (← ask (·.moduleName m))))
  firstOf (← growPorts m [port]) (.unknownModule m)

/-- Add an operation at the end of a body. -/
def newOp (m : ModuleId) (kind : OpKind) (types : List SignalType) : Edit OpId := do
  let _ ← ask (·.module m)
  let (o, d) := (← get).enterOp m kind types
  set d
  changeModule m fun x => { x with body := x.body ++ [o] }
  return o

/-- Add an operation with one result at the end of a body. -/
def newDefinition (m : ModuleId) (kind : OpKind) (type : SignalType) : Edit (OpId × ValueId) := do
  let o ← newOp m kind [type]
  let op ← ask (·.op o)
  return (o, ← firstOf op.results (.unknownOp o))

def newWire (m : ModuleId) (name : String) (type : SignalType) : Edit (OpId × ValueId) :=
  newDefinition m (.wire name type) type

def newReg (m : ModuleId) (name : String) (type : SignalType) : Edit (OpId × ValueId) :=
  newDefinition m (.reg name type) type

def newNode (m : ModuleId) (name : String) (input : ValueId) : Edit (OpId × ValueId) := do
  ask (·.checkVisible m input)
  newDefinition m (.node name input) (← ask (·.valueType input))

/-- Instantiate `child`, with one result for each of its ports. -/
def instantiate (m : ModuleId) (name : String) (child : ModuleId) : Edit OpId := do
  let c ← ask (·.module child)
  newOp m (.inst name child) (c.ports.map (·.type))

/-- Drive `dest` from `src`, both visible in the module. -/
def connect (m : ModuleId) (dest src : ValueId) : Edit OpId := do
  ask (·.checkVisible m dest)
  ask (·.checkVisible m src)
  newOp m (.connect dest src) []

/-- Add an operation that converts a value. The type of its result is made from that of the
value. -/
def newConversion (m : ModuleId) (kind : ValueId → OpKind) (convert : SignalType → SignalType)
    (v : ValueId) : Edit ValueId := do
  ask (·.checkVisible m v)
  let type ← ask (·.valueType v)
  Prod.snd <$> newDefinition m (kind v) (convert type)

/-- Add a reference to a value. -/
def sendRef (m : ModuleId) : ValueId → Edit ValueId := newConversion m .refSend .toRef

/-- Add the value behind a reference. -/
def resolveRef (m : ModuleId) : ValueId → Edit ValueId := newConversion m .refResolve .deref

/-- Drive `dest` from `src`, with a conversion in between if one of them alone is a reference. -/
def drive (m : ModuleId) (dest src : ValueId) : Edit Unit := do
  let destType ← ask (·.valueType dest)
  let srcType ← ask (·.valueType src)
  let src ← match destType.isRef, srcType.isRef with
    | true, false => sendRef m src
    | false, true => resolveRef m src
    | _, _ => pure src
  let _ ← connect m dest src

/-- Enter a copy of an instance behind it, with fresh results and further ones for new ports. -/
def cloneInstance (o : OpId) (ports : List PortDecl) : Edit OpId := do
  let old ← ask (·.op o)
  if old.kind.child?.isNone then
    throw (.notAnInstance o)
  let _ ← ask (·.module old.parent)
  let types ← old.results.mapM fun v => ask (·.valueType v)
  let (new, d) := (← get).enterOp old.parent old.kind (types ++ ports.map (·.type))
  set d
  changeModule old.parent fun x => { x with body := insertBehind o new x.body }
  return new

/-- Exchange all uses of `old` in the module that it belongs to, and answer their number. -/
def redirectUses (old new : ValueId) : Edit Nat := do
  let m ← ask (·.valueModule old)
  let x ← ask (·.module m)
  let d ← get
  let (n, ops) := redirect old new x.body d.ops
  set { d with ops }
  return n

/-- Take an operation out of its table. -/
def takeOp (o : OpId) : Edit Op := do
  let op ← ask (·.op o)
  modify fun d => { d with ops := d.ops.set o.index none }
  return op

/-- Remove an operation from its body, with its notes. -/
def removeOp (o : OpId) : Edit Op := do
  let parent := (← ask (·.op o)).parent
  let _ ← ask (·.module parent)
  let op ← takeOp o
  changeModule parent fun x => { x with body := x.body.filter (· ≠ o) }
  modify fun d => { d with attachments := d.attachments.forgetOp o }
  return op

end Edit

end AnnotatedCircuit
