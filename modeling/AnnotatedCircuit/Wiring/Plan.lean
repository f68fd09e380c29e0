import AnnotatedCircuit.Attempt
import AnnotatedCircuit.Hierarchy.Paths

/-!
Planning how a value reaches another module.

A request joins a source to a sink. The plan meets them in the module where their paths part: every
module below it gets a port, an output on the side of the source and an input on the side of the
sink. Nothing is changed in the design here.
-/

namespace AnnotatedCircuit

/-- A wish that `source` drives `sink`, wherever the two are. -/
structure WireRequest where
  source : ValueId
  sink : ValueId
  /-- Whether the value travels as a reference. -/
  asRef : Bool
  /-- The name wanted for the ports on the way. -/
  hint : String
deriving DecidableEq, Repr, Inhabited

namespace Wiring

/-- Whether a value provides what is wired or is driven by it. -/
inductive Role where
  | source
  | sink
deriving DecidableEq, Repr, Inhabited

/-- A value that stands for one side of a request in a module. -/
structure Endpoint where
  value : ValueId
  role : Role
deriving DecidableEq, Repr, Inhabited

structure PlannedPort where
  port : PortDecl
  request : Nat
deriving DecidableEq, Inhabited

/-- What is to be done in one module. -/
structure ModuleChanges where
  ports : List PlannedPort
  /-- For each request, the first endpoint recorded. -/
  endpoints : OrderedMap Nat Endpoint
  /-- The endpoints recorded later: each closes its request here. -/
  closings : List (Endpoint × Nat)
deriving Inhabited

namespace ModuleChanges

def empty : ModuleChanges := ⟨[], .empty, []⟩

def isEmpty (c : ModuleChanges) : Bool :=
  c.ports.isEmpty && c.endpoints.isEmpty && c.closings.isEmpty

/-- Record an endpoint of a request. -/
def record (c : ModuleChanges) (request : Nat) (e : Endpoint) : ModuleChanges :=
  if c.endpoints.contains request then { c with closings := c.closings ++ [(e, request)] }
  else { c with endpoints := c.endpoints.insert request e }

def addPort (c : ModuleChanges) (p : PlannedPort) : ModuleChanges :=
  { c with ports := c.ports ++ [p] }

end ModuleChanges

/-- The changes of all modules, in the order in which the modules came up. -/
structure Plan where
  changes : OrderedMap ModuleId ModuleChanges
  /-- The names taken in the modules that get ports, planned ones included. -/
  names : OrderedMap ModuleId NameSupply
deriving Inhabited

namespace Plan

def empty : Plan := ⟨.empty, .empty⟩

/-- Change the entry of a module, which is made if there is none. -/
def modify (p : Plan) (m : ModuleId) (f : ModuleChanges → ModuleChanges) : Plan :=
  { p with changes := p.changes.update m fun c => f (c.getD .empty) }

end Plan

/-- How many instances two paths share from the top on. -/
def sharedLength : InstPath → InstPath → Nat
  | a :: as, b :: bs => if a = b then sharedLength as bs + 1 else 0
  | _, _ => 0

/-- The module where two paths part, and what is left of each. -/
structure Meeting where
  module : ModuleId
  sources : InstPath
  sinks : InstPath
deriving DecidableEq, Repr, Inhabited

def meeting (h : Hierarchy) (source sink : InstPath) : Except DesignError Meeting := do
  let n := sharedLength source sink
  let m ← match (source.take n).getLast? with
    | none => pure h.top
    | some o => Site.child <$> h.site o
  return ⟨m, source.drop n, sink.drop n⟩

/-- The state of planning: the paths known and the plan so far. -/
structure Planning where
  table : PathTable
  plan : Plan
deriving Inhabited

variable (d : Design)

/-- The paths to a module, which are known from then on. -/
def pathsOf (m : ModuleId) : Attempt Planning (List InstPath) := fun s =>
  let (ps, table) := s.table.paths m
  .ok ps { s with table }

/-- The only path to the module of an endpoint. -/
def onlyPath (request : Nat) (m : ModuleId) : Attempt Planning InstPath := do
  match ← pathsOf m with
  | [p] => return p
  | ps => .fail (.ambiguous request (← .ofDesign (d.moduleName m)) ps.length)

/-- The names taken in a module, planned ones included. -/
def supplyOf (m : ModuleId) : Attempt Planning NameSupply := do
  match (← get).plan.names.find? m with
  | some supply => return supply
  | none => .ofDesign (d.namesIn m)

/-- A free name in a module, reserved for a port. -/
def portName (m : ModuleId) (hint : String) : Attempt Planning String := do
  let supply ← supplyOf d m
  let (name, supply) ← .ofChecked (supply.fresh hint)
  modify fun s => { s with plan := { s.plan with names := s.plan.names.insert m supply } }
  return name

def changeModule (m : ModuleId) (f : ModuleChanges → ModuleChanges) : Attempt Planning Unit :=
  modify fun s => { s with plan := s.plan.modify m f }

/-- Plan a port on the module that an instance leads into. -/
def planPort (request : Nat) (hint : String) (type : SignalType) (direction : Direction)
    (o : OpId) : Attempt Planning Unit := do
  let s ← .ofDesign ((← get).table.hierarchy.site o)
  let name ← portName d s.child hint
  changeModule s.child (·.addPort ⟨⟨name, type, direction⟩, request⟩)

/-- Plan a port on each module that the instances lead into. -/
def planPorts (request : Nat) (hint : String) (type : SignalType) (direction : Direction)
    (path : InstPath) : Attempt Planning Unit :=
  path.forM (planPort d request hint type direction)

/-- Plan one request between two modules along the paths to them. -/
def planAlong (request : Nat) (r : WireRequest) (sourceModule sinkModule : ModuleId)
    (sourcePath sinkPath : InstPath) : Attempt Planning Unit := do
  let m ← .ofDesign (meeting (← get).table.hierarchy sourcePath sinkPath)
  let sinkType ← .ofDesign (d.valueType r.sink)
  let type := if r.asRef then sinkType.toRef else sinkType
  changeModule sourceModule (·.record request ⟨r.source, .source⟩)
  changeModule sinkModule (·.record request ⟨r.sink, .sink⟩)
  planPorts d request r.hint type .output m.sources
  planPorts d request r.hint type .input m.sinks

/-- Plan one request. -/
def planRequest (request : Nat) (r : WireRequest) : Attempt Planning Unit := do
  let sourceModule ← .ofDesign (d.valueModule r.source)
  let sinkModule ← .ofDesign (d.valueModule r.sink)
  let sourcePath ← onlyPath d request sourceModule
  let sinkPath ← onlyPath d request sinkModule
  planAlong d request r sourceModule sinkModule sourcePath sinkPath

/-- Plan the requests from the given number on. A request that fails is reported and left out. -/
def planFrom : (request : Nat) → List WireRequest → Planning →
    Except Overflow (Planning × List LowerError)
  | _, [], s => .ok (s, [])
  | n, r :: rs, s =>
    match planRequest d n r s with
    | .ok _ s => planFrom (n + 1) rs s
    | .error (.failure e) s => do
      let (s, es) ← planFrom (n + 1) rs s
      return (s, e :: es)
    | .error (.overflow o) _ => .error o

/-- The plan for a list of requests, and one error for each request left out. -/
def plan (table : PathTable) (requests : List WireRequest) :
    Except Overflow (Planning × List LowerError) :=
  planFrom d 0 requests ⟨table, .empty⟩

end Wiring

end AnnotatedCircuit
