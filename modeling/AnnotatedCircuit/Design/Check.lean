import AnnotatedCircuit.Design.Basic

/-!
The structural rules of a design.

`Design.check` accepts a design in which every body lists live operations of its own module, every
operand is a live value of the module that uses it, and every instance has one result for each port
of its child.
-/

namespace AnnotatedCircuit.Design

variable (d : Design)

/-- A value may be used in the module that it belongs to. -/
def checkVisible (m : ModuleId) (v : ValueId) : Except DesignError Unit := do
  let owner ← d.valueModule v
  if owner ≠ m then
    throw (.inconsistent (.foreignValue v (← d.moduleName owner) (← d.moduleName m)))

/-- An instance has as many results as its child has ports. -/
def checkResults (o : OpId) (op : Op) : Except DesignError Unit := do
  match op.kind with
  | .inst _ child =>
    let c ← d.module child
    if c.ports.length ≠ op.results.length then
      throw (.inconsistent (.resultCount o op.results.length c.name c.ports.length))
  | _ => pure ()

/-- An entry of the body of `m`. -/
def checkEntry (m : Module) (o : OpId) : Except DesignError Unit := do
  let op ← d.op o
  if op.parent ≠ m.id then
    throw (.inconsistent (.wrongBody o m.name))
  op.kind.operands.forM (d.checkVisible m.id)
  d.checkResults o op

/-- All structural rules; the first fault in the order of modules and bodies is reported. -/
def check : Except DesignError Unit :=
  d.modules.forM fun m => m.body.forM (d.checkEntry m)

end AnnotatedCircuit.Design
