import AnnotatedCircuit.Lowering.State

/-!
Handlers: what is done with the notes of a class.

A handler locates the target of a note and then acts on it. The built-in ones attach the note to its
target, drop it, or enter its target as an end of a pin.
-/

namespace AnnotatedCircuit

structure Handler where
  locate : Note → Lowering Target
  apply : Target → Note → Lowering Unit

namespace Note

/-- The class for messages; a note without a class has an empty one. -/
def className (n : Note) : String := n.class?.getD ""

end Note

namespace Lowering

/-- Refuse a note whose target was reached through instances. -/
def requireLocal (t : Target) (n : Note) : Lowering Unit :=
  unless t.isLocal do
    .fail (.nonLocal n.className ((n.str? Note.targetField).getD ""))

def reject {α : Type} (n : Note) (fault : ApplyFault) : Lowering α :=
  .fail (.rejected n.className fault)

/-- The fields that a note keeps when it is attached. The target goes; behind a route the name of an
anchor takes its place. -/
def attachedFields (t : Target) : List (String × Json) → Note → Lowering Note
  | [], kept => pure kept
  | (key, value) :: fields, kept => do
    if key ≠ Note.targetField then
      attachedFields t fields (kept.insert key value)
    else if t.isLocal then
      attachedFields t fields kept
    else
      let name ← anchorName t.route (← ask (·.entityModule t.entity))
      attachedFields t fields (kept.insert Note.nonlocalField (.str name))

/-- Attach a note to its target. -/
def attach (allowNonLocal : Bool) (t : Target) (n : Note) : Lowering Unit := do
  unless allowNonLocal do
    requireLocal t n
  let kept ← attachedFields t n.fields.entries .empty
  let kept := if t.fieldId = 0 then kept else kept.insert Note.fieldIdField (Json.nat t.fieldId)
  modify fun s =>
    let attachments := s.design.attachments.append t.entity [kept]
    { s with design := { s.design with attachments } }

/-- Attach a note to its target if that is of one of the kinds listed, or a port where these are
allowed. -/
def attachTo (allowNonLocal allowPorts : Bool) (kinds : List EntityKind) (t : Target) (n : Note) :
    Lowering Unit := do
  let kind ← ask (·.entityKind t.entity)
  let fits := match kind with
    | .port => allowPorts
    | k => kinds.contains k
  if fits then attach allowNonLocal t n else reject n (.unfit kind)

def drop (_ : Target) (_ : Note) : Lowering Unit := pure ()

/-- The field that names the pin of a wire. -/
def pinField : String := "pin"

/-- The pin and the value of an end of a wire. -/
def pinEnd (t : Target) (n : Note) : Lowering (String × ValueId) := do
  requireLocal t n
  match n.str? pinField with
  | none => reject n .noPin
  | some pin =>
    if t.fieldId ≠ 0 then reject n .partOfAggregate
    match ← ask (·.entityValue t.entity) with
    | none => reject n .noValue
    | some v => return (pin, v)

def pinSource (t : Target) (n : Note) : Lowering Unit := do
  let (pin, v) ← pinEnd t n
  if (((← get).pins.find? pin).bind Pin.source).isSome then
    reject n (.secondSource pin)
  modify fun s =>
    { s with pins := s.pins.update pin fun p => { p.getD {} with source := some v } }

def pinSink (t : Target) (n : Note) : Lowering Unit := do
  let (pin, v) ← pinEnd t n
  modify fun s =>
    { s with pins := s.pins.update pin fun p =>
        { p.getD {} with sinks := (p.getD {}).sinks ++ [v] } }

end Lowering

namespace Handler

/-- A handler for notes that name their target. -/
def targeted (apply : Target → Note → Lowering Unit) : Handler := ⟨Lowering.locate, apply⟩

/-- A handler for notes on the circuit, whatever they name. -/
def untargeted (apply : Target → Note → Lowering Unit) : Handler := ⟨fun _ => pure .circuit, apply⟩

/-- A handler for notes that configure a tool: they are kept on the circuit. -/
def configuration : Handler := untargeted (Lowering.attachTo false false [.circuit])

end Handler

/-- The handlers, under the class they are for. -/
abbrev Handlers := OrderedMap String Handler

namespace Handlers

/-- The class of the sinks of pins. -/
def pinSinkClass : String := "firrtl.passes.wiring.SinkAnnotation"

open Handler Lowering

/-- The built-in handlers. -/
def builtin : Handlers := .ofList [
  ("circt.test", targeted (attach true)),
  ("circt.testLocalOnly", targeted (attach false)),
  ("circt.testNT", untargeted (attach false)),
  ("circt.missing", ⟨locateIfGiven, attach true⟩),
  ("firrtl.transforms.DontTouchAnnotation",
    targeted (attachTo true true [.op .wire, .op .node, .op .reg, .op .inst])),
  ("firrtl.passes.InlineAnnotation", targeted (attachTo false false [.module])),
  ("firrtl.transforms.FlattenAnnotation", targeted (attachTo false false [.module])),
  ("firrtl.transforms.NoDedupAnnotation",
    targeted (attachTo false false [.module, .externalModule])),
  ("sifive.enterprise.firrtl.MarkDUTAnnotation", targeted (attachTo false false [.module])),
  ("firrtl.stage.RunFIRRTLTransformAnnotation", untargeted drop),
  ("firrtl.transforms.BlackBoxTargetDirAnno", configuration),
  ("firrtl.passes.wiring.SourceAnnotation", targeted pinSource),
  (pinSinkClass, targeted pinSink)]

end Handlers

end AnnotatedCircuit
