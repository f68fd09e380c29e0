import AnnotatedCircuit.Design.Basic
import AnnotatedCircuit.SignalType.Json

/-!
The written form of designs.
-/

namespace AnnotatedCircuit

def ModuleKind.toJson : ModuleKind → Json
  | .defined => .str "Module"
  | .external => .str "External"

def ModuleKind.ofInput? (i : Json.Input) : Option ModuleKind :=
  match i.tag? with
  | some "Module" => some .defined
  | some "External" => some .external
  | _ => none

def OpKind.toJson : OpKind → Json
  | .inst name child => .tagged "Instance" (.obj [("name", .str name), ("module", child.toJson)])
  | .wire name type => .tagged "Wire" (.obj [("name", .str name), ("ty", type.toJson)])
  | .reg name type => .tagged "Reg" (.obj [("name", .str name), ("ty", type.toJson)])
  | .node name input => .tagged "Node" (.obj [("name", .str name), ("input", input.toJson)])
  | .connect dest src => .tagged "Connect" (.obj [("dest", dest.toJson), ("src", src.toJson)])
  | .refSend base => .tagged "RefSend" (.obj [("base", base.toJson)])
  | .refResolve reference => .tagged "RefResolve" (.obj [("reference", reference.toJson)])

def OpKind.ofInput? (i : Json.Input) : Option OpKind :=
  match i.alternative? with
  | some ("Instance", some c) =>
    match c.allContentFields? ["name", "module"] with
    | some [name, child] => do return .inst (← name.str?) (← ModuleId.ofInput? child)
    | _ => none
  | some ("Wire", some c) =>
    match c.allContentFields? ["name", "ty"] with
    | some [name, type] => do return .wire (← name.str?) (← SignalType.ofInput? type)
    | _ => none
  | some ("Reg", some c) =>
    match c.allContentFields? ["name", "ty"] with
    | some [name, type] => do return .reg (← name.str?) (← SignalType.ofInput? type)
    | _ => none
  | some ("Node", some c) =>
    match c.allContentFields? ["name", "input"] with
    | some [name, input] => do return .node (← name.str?) (← ValueId.ofInput? input)
    | _ => none
  | some ("Connect", some c) =>
    match c.allContentFields? ["dest", "src"] with
    | some [dest, src] => do return .connect (← ValueId.ofInput? dest) (← ValueId.ofInput? src)
    | _ => none
  | some ("RefSend", some c) =>
    match c.allContentFields? ["base"] with
    | some [base] => (ValueId.ofInput? base).map .refSend
    | _ => none
  | some ("RefResolve", some c) =>
    match c.allContentFields? ["reference"] with
    | some [reference] => (ValueId.ofInput? reference).map .refResolve
    | _ => none
  | _ => none

def OpTag.text : OpTag → String
  | .inst => "Instance"
  | .wire => "Wire"
  | .reg => "Reg"
  | .node => "Node"
  | .connect => "Connect"
  | .refSend => "RefSend"
  | .refResolve => "RefResolve"

def OpTag.ofInput? (i : Json.Input) : Option OpTag :=
  match i.tag? with
  | some "Instance" => some .inst
  | some "Wire" => some .wire
  | some "Reg" => some .reg
  | some "Node" => some .node
  | some "Connect" => some .connect
  | some "RefSend" => some .refSend
  | some "RefResolve" => some .refResolve
  | _ => none

def Op.toJson (op : Op) : Json :=
  .obj [("id", op.id.toJson), ("parent", op.parent.toJson), ("kind", op.kind.toJson),
    ("results", Json.list ValueId.toJson op.results)]

def Op.ofInput? (i : Json.Input) : Option Op :=
  match i.allFields? ["id", "parent", "kind", "results"] with
  | some [id, parent, kind, results] => do
    return ⟨← OpId.ofInput? id, ← ModuleId.ofInput? parent, ← OpKind.ofInput? kind,
      ← results.list? ValueId.ofInput?⟩
  | _ => none

def PortDecl.toJson (p : PortDecl) : Json :=
  .obj [("name", .str p.name), ("ty", p.type.toJson), ("direction", p.direction.toJson)]

def Port.toJson (p : Port) : Json :=
  .obj [("name", .str p.name), ("ty", p.type.toJson), ("direction", p.direction.toJson),
    ("value", p.value.toJson)]

def Port.ofInput? (i : Json.Input) : Option Port :=
  match i.allFields? ["name", "ty", "direction", "value"] with
  | some [name, type, direction, value] => do
    return ⟨⟨← name.str?, ← SignalType.ofInput? type, ← Direction.ofInput? direction⟩,
      ← ValueId.ofInput? value⟩
  | _ => none

def Module.toJson (m : Module) : Json :=
  .obj [("id", m.id.toJson), ("name", .str m.name), ("kind", m.kind.toJson),
    ("ports", Json.list Port.toJson m.ports), ("body", Json.list OpId.toJson m.body)]

def Module.ofInput? (i : Json.Input) : Option Module :=
  match i.allFields? ["id", "name", "kind", "ports", "body"] with
  | some [id, name, kind, ports, body] => do
    return ⟨← ModuleId.ofInput? id, ← name.str?, ← ModuleKind.ofInput? kind,
      ← ports.list? Port.ofInput?, ← body.list? OpId.ofInput?⟩
  | _ => none

def ValueOrigin.toJson : ValueOrigin → Json
  | .port m index => .tagged "Port" (.obj [("module", m.toJson), ("index", Json.nat index)])
  | .result o index => .tagged "Result" (.obj [("op", o.toJson), ("index", Json.nat index)])

def ValueOrigin.ofInput? (i : Json.Input) : Option ValueOrigin :=
  match i.alternative? with
  | some ("Port", some c) =>
    match c.allContentFields? ["module", "index"] with
    | some [m, index] => do return .port (← ModuleId.ofInput? m) (← index.index?)
    | _ => none
  | some ("Result", some c) =>
    match c.allContentFields? ["op", "index"] with
    | some [o, index] => do return .result (← OpId.ofInput? o) (← index.index?)
    | _ => none
  | _ => none

def Value.toJson (x : Value) : Json :=
  .obj [("ty", x.type.toJson), ("def", x.origin.toJson)]

def Value.ofInput? (i : Json.Input) : Option Value :=
  match i.allFields? ["ty", "def"] with
  | some [type, origin] => do return ⟨← SignalType.ofInput? type, ← ValueOrigin.ofInput? origin⟩
  | _ => none

def PathStep.toJson (s : PathStep) : Json := .obj [("module", .str s.module), ("name", .str s.name)]

def PathStep.ofInput? (i : Json.Input) : Option PathStep :=
  match i.allFields? ["module", "name"] with
  | some [m, name] => do return ⟨← m.str?, ← name.str?⟩
  | _ => none

def Anchor.toJson (a : Anchor) : Json :=
  .obj [("id", a.id.toJson), ("name", .str a.name), ("namepath", Json.list PathStep.toJson a.path),
    ("leaf", .str a.leaf)]

def Anchor.ofInput? (i : Json.Input) : Option Anchor :=
  match i.allFields? ["id", "name", "namepath", "leaf"] with
  | some [id, name, path, leaf] => do
    return ⟨← AnchorId.ofInput? id, ← name.str?, ← path.list? PathStep.ofInput?, ← leaf.str?⟩
  | _ => none

namespace Design

def toJson (d : Design) : Json :=
  .obj [("name", .str d.name), ("top", d.top.toJson),
    ("modules", Json.list Module.toJson d.modules),
    ("ops", Json.list (Json.ofOption Op.toJson) d.ops),
    ("values", Json.list Value.toJson d.values),
    ("raw_annotations", Json.list Note.toJson d.pending),
    ("annotations", d.attachments.toJson),
    ("hier_paths", Json.list Anchor.toJson d.anchors),
    ("symbols", d.symbols.toJson)]

/-- Mark the names of the circuit, of its modules and of its anchors as used, whatever the written
table of symbols says. -/
def reserveNames (d : Design) : Design :=
  { d with
    symbols := d.symbols.addAll (d.name :: d.modules.map Module.name ++ d.anchors.map Anchor.name) }

/-- Read a design. Notes, anchors and symbols may be missing. -/
def ofInput? (i : Json.Input) : Option Design :=
  match i.fields? ["name", "top", "modules", "ops", "values", "raw_annotations", "annotations",
    "hier_paths", "symbols"] with
  | some [some name, some top, some modules, some ops, some values, pending, attachments, anchors,
      symbols] => do
    return reserveNames {
      name := ← name.str?
      top := ← ModuleId.ofInput? top
      modules := ← modules.list? Module.ofInput?
      ops := ← ops.list? (Json.Input.nullable? Op.ofInput?)
      values := ← values.list? Value.ofInput?
      pending := ← Json.Input.orDefault? [] (Json.Input.list? Note.ofInput?) pending
      attachments := ← Json.Input.orDefault? .empty Attachments.ofInput? attachments
      anchors := ← Json.Input.orDefault? [] (Json.Input.list? Anchor.ofInput?) anchors
      symbols := ← Json.Input.orDefault? .empty NameSupply.ofInput? symbols }
  | _ => none

end Design

end AnnotatedCircuit
