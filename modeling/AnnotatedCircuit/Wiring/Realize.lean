import AnnotatedCircuit.Design.Edit
import AnnotatedCircuit.Wiring.Plan

/-!
Carrying out a wiring plan.

The modules are visited children first. A module gets its ports, connects them with what stands for
their requests, closes the requests that meet in it, and has each of its instances replaced by a
copy with the new ports, whose results are recorded for the module around. A failed step is
recorded, and the work goes on.
-/

namespace AnnotatedCircuit.Wiring

structure Counts where
  ports : Nat := 0
  instances : Nat := 0
  connections : Nat := 0
deriving DecidableEq, Repr, Inhabited

structure Realizing where
  design : Design
  table : PathTable
  plan : Plan
  /-- The results of removed instances and what replaced them, first replaced first. -/
  renames : OrderedMap ValueId ValueId
  counts : Counts
  errors : List DesignError
deriving Inhabited

abbrev Realize := EStateM DesignError Realizing

namespace Realize

def edit {α : Type} (x : Edit α) : Realize α := fun s =>
  match x s.design with
  | .ok a design => .ok a { s with design }
  | .error e design => .error e { s with design }

def ask {α : Type} (question : Design → Except DesignError α) : Realize α :=
  edit (Edit.ask question)

/-- Record the failure of a step instead of passing it on. -/
def recorded (x : Realize Unit) : Realize Unit := fun s =>
  match x s with
  | .ok _ s => .ok () s
  | .error e s => .ok () { s with errors := s.errors ++ [e] }

/-- The value that stands for `v` now. A replacement is younger than what it replaces, so one pass
over the renames finds it. -/
def follow (renames : OrderedMap ValueId ValueId) (v : ValueId) : ValueId :=
  renames.entries.foldl (fun v r => if r.1 = v then r.2 else v) v

def current (e : Endpoint) : Realize Endpoint := do
  return { e with value := follow (← get).renames e.value }

/-- The endpoint of a request in a module. -/
def endpoint (m : ModuleId) (c : ModuleChanges) (request : Nat) : Realize Endpoint := do
  match c.endpoints.find? request with
  | some e => current e
  | none =>
    let name := ((← get).design.module? m).map Module.name
    throw (.inconsistent (.noEndpoint request (name.getD "<unknown>")))

def countConnection : Realize Unit :=
  modify fun s => { s with counts := { s.counts with connections := s.counts.connections + 1 } }

/-- Connect a new port with the endpoint of its request. -/
def joinPort (m : ModuleId) (c : ModuleChanges) (p : PlannedPort) (port : ValueId) :
    Realize Unit := do
  let e ← endpoint m c p.request
  match p.port.direction with
  | .output => edit (Edit.drive m port e.value)
  | .input => edit (Edit.drive m e.value port)
  countConnection

/-- Join the two endpoints of a request in the module where they meet. -/
def close (m : ModuleId) (c : ModuleChanges) (e : Endpoint) (request : Nat) : Realize Unit := do
  let e ← current e
  let first ← endpoint m c request
  match e.role with
  | .sink => edit (Edit.drive m e.value first.value)
  | .source => edit (Edit.drive m first.value e.value)
  countConnection

/-- Redirect the uses of one result of a replaced instance. -/
def redirectResult (old new : ValueId) : Realize Unit := do
  let _ ← edit (Edit.redirectUses old new)
  modify fun s => { s with renames := s.renames.insert old new }

/-- Replace an instance in the paths that are known. -/
def replaceInPaths (old new : OpId) : Realize Unit := fun s =>
  match s.table.replace old new with
  | .ok table => .ok () { s with table }
  | .error e => .error e s

/-- Outputs of an instance provide a value, inputs are driven. -/
def roleOfResult : Direction → Role
  | .output => .source
  | .input => .sink

/-- Record the results of an instance for new ports. -/
def recordResults (c : ModuleChanges) (ports : List PlannedPort) (results : List ValueId) :
    ModuleChanges :=
  (ports.zip results).foldl (fun c (p, v) =>
    c.record p.request ⟨v, roleOfResult p.port.direction⟩) c

/-- Replace an instance by a copy with the new ports, and record these for the module around. -/
def reissue (ports : List PlannedPort) (site : Site) : Realize Unit := do
  let old := (← ask (·.op site.op)).results
  let copy ← edit (Edit.cloneInstance site.op (ports.map (·.port)))
  let new := (← ask (·.op copy)).results
  (old.zip new).forM fun (v, w) => redirectResult v w
  modify fun s =>
    { s with design := { s.design with attachments := s.design.attachments.moveOp site.op copy } }
  let _ ← edit (Edit.removeOp site.op)
  replaceInPaths site.op copy
  modify fun s => { s with
    counts := { s.counts with instances := s.counts.instances + 1 }
    plan := s.plan.modify site.parent fun c => recordResults c ports (new.drop old.length) }

/-- Add the new ports of a module, and connect them. -/
def joinPorts (m : ModuleId) (c : ModuleChanges) : Realize Unit := do
  let ports ← edit (Edit.growPorts m (c.ports.map (·.port)))
  modify fun s => { s with counts := { s.counts with ports := s.counts.ports + ports.length } }
  (c.ports.zip ports).forM fun (p, port) => recorded (joinPort m c p port)

/-- Close the requests that meet in a module. -/
def closeAll (m : ModuleId) (c : ModuleChanges) : Realize Unit :=
  c.closings.forM fun (e, request) => recorded (close m c e request)

/-- Replace all instances of a module that got ports. -/
def reissueAll (m : ModuleId) (ports : List PlannedPort) : Realize Unit := do
  unless ports.isEmpty do
    let sites := (← get).table.hierarchy.uses m
    sites.forM fun site => recorded (reissue ports site)

/-- Carry out the changes of one module. -/
def realizeModule (m : ModuleId) (c : ModuleChanges) : Realize Unit := do
  joinPorts m c
  closeAll m c
  reissueAll m c.ports

/-- Take the changes of a module out of the plan and carry them out. -/
def visit (m : ModuleId) : Realize Unit := do
  match (← get).plan.changes.find? m with
  | none => return
  | some c =>
    modify fun s => { s with plan := { s.plan with changes := s.plan.changes.erase m } }
    unless c.isEmpty do
      recorded (realizeModule m c)

end Realize

/-- Carry out a plan. The order of the modules is fixed before the first change. -/
def realize (d : Design) (table : PathTable) (plan : Plan) : Realizing :=
  match table.hierarchy.childrenFirst.forM Realize.visit ⟨d, table, plan, .empty, {}, []⟩ with
  | .ok _ s => s
  | .error e s => { s with errors := s.errors ++ [e] }

end AnnotatedCircuit.Wiring
