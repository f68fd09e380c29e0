import AnnotatedCircuit.SignalType.Basic
import AnnotatedCircuit.Json.Decode

/-!
The written form of signal types.
-/

namespace AnnotatedCircuit

mutual

def SignalType.toJson : SignalType → Json
  | .uint width => .tagged "UInt" (.obj [("width", Json.ofOption Json.nat width)])
  | .sint width => .tagged "SInt" (.obj [("width", Json.ofOption Json.nat width)])
  | .clock => .str "Clock"
  | .reset => .str "Reset"
  | .asyncReset => .str "AsyncReset"
  | .bundle fs => .tagged "Bundle" (.arr fs.toJsonItems)
  | .vector element length =>
    .tagged "Vector" (.obj [("element", element.toJson), ("length", Json.nat length)])
  | .ref target => .tagged "Ref" target.toJson

def Fields.toJsonItems : Fields → List Json
  | .nil => []
  | .cons name flipped type rest =>
    .obj [("name", .str name), ("flip", .bool flipped), ("ty", type.toJson)] :: rest.toJsonItems

end

/-- The width of an integer type, which may be absent. -/
def width? (content : Json.Input) : Option (Option Nat) :=
  match content.contentFields? ["width"] with
  | some [width] => Json.Input.orDefault? none (Json.Input.nullable? Json.Input.word?) width
  | _ => none

/-- Read the fields of a bundle, their types by `decode`. -/
def Fields.ofInputs? (decode : Json.Input → Option SignalType) : List Json.Input → Option Fields
  | [] => some .nil
  | i :: rest =>
    match i.allFields? ["name", "flip", "ty"] with
    | some [name, flipped, type] => do
      return .cons (← name.str?) (← flipped.bool?) (← decode type) (← ofInputs? decode rest)
    | _ => none

/-- Read a type in which no more than `level` types are nested. -/
def SignalType.ofInputWithin? : (level : Nat) → Json.Input → Option SignalType
  | 0, _ => none
  | level + 1, i =>
    match i.tag? with
    | some "Clock" => some .clock
    | some "Reset" => some .reset
    | some "AsyncReset" => some .asyncReset
    | _ =>
      match i.alternative? with
      | some ("UInt", some content) => (width? content).map .uint
      | some ("SInt", some content) => (width? content).map .sint
      | some ("Bundle", some content) =>
        (content.items?.bind (Fields.ofInputs? (ofInputWithin? level))).map .bundle
      | some ("Vector", some content) =>
        match content.allContentFields? ["element", "length"] with
        | some [element, length] => do
          return .vector (← ofInputWithin? level element) (← length.word?)
        | _ => none
      | some ("Ref", some content) => (ofInputWithin? level content).map .ref
      | _ => none

/-- Read a type. Nested types are nested in their written form too, so its depth bounds theirs. -/
def SignalType.ofInput? (i : Json.Input) : Option SignalType := ofInputWithin? (i.depth + 1) i

def Direction.toJson : Direction → Json
  | .input => .str "In"
  | .output => .str "Out"

def Direction.ofInput? (i : Json.Input) : Option Direction :=
  match i.tag? with
  | some "In" => some .input
  | some "Out" => some .output
  | _ => none

end AnnotatedCircuit
