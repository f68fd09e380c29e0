import AnnotatedCircuit.Design.Basic

/-!
The hierarchy of a design: which module instantiates which.

There is one edge for each instance, entered module by module in the order of the bodies. All lists
of edges keep this order, also when the operation behind an edge is replaced.
-/

namespace AnnotatedCircuit

/-- An instance, seen from either end. -/
structure Site where
  op : OpId
  parent : ModuleId
  child : ModuleId
deriving DecidableEq, Repr, Inhabited

structure Edge extends Site where
  /-- Whether a look-up of the operation finds this edge. If a body lists an operation twice, only
  the last edge is found. -/
  current : Bool
deriving DecidableEq, Repr, Inhabited

structure Hierarchy where
  top : ModuleId
  /-- The modules in the order of the design. -/
  modules : List (String × ModuleId)
  edges : List Edge
deriving DecidableEq, Repr, Inhabited

namespace Hierarchy

/-- Enter an edge, which is now the one found for its operation. -/
def enter (edges : List Edge) (s : Site) : List Edge :=
  edges.map (fun e => { e with current := e.current && e.op ≠ s.op }) ++ [⟨s, true⟩]

variable (h : Hierarchy)

def ids : List ModuleId := h.modules.map Prod.snd

/-- The last module of a name. -/
def named (name : String) : Except DesignError ModuleId :=
  match h.modules.reverse.find? (·.1 == name) with
  | some (_, m) => .ok m
  | none => .error (.noModuleNamed name)

/-- The instances in a module. -/
def instances (m : ModuleId) : List Site := (h.edges.filter (·.parent == m)).map Edge.toSite

/-- The instances of a module. -/
def uses (m : ModuleId) : List Site := (h.edges.filter (·.child == m)).map Edge.toSite

/-- The modules instantiated in a module, once for each instance. -/
def children (m : ModuleId) : List ModuleId := (h.instances m).map Site.child

def site? (o : OpId) : Option Site :=
  (h.edges.find? fun e => e.current && e.op == o).map Edge.toSite

/-- The edge of an instance. -/
def site (o : OpId) : Except DesignError Site :=
  match h.site? o with
  | some s => .ok s
  | none => .error (.unknownEdge o)

/-- Exchange the operation behind the edge of `old`. If another edge was found for `new`, it is
found no more. -/
def replace (old new : OpId) : Except DesignError Hierarchy := do
  let _ ← h.site old
  return { h with
    edges := h.edges.map fun e =>
      if e.current && e.op == old then { e with op := new }
      else { e with current := e.current && e.op ≠ new } }

/-- Work through instances and the instances of the modules that hold them, up to `m`. -/
def sweep (m : ModuleId) : (fuel : Nat) → (work seen : List OpId) → Bool
  | _, [], _ => true
  | 0, _ :: _, _ => true
  | fuel + 1, o :: work, seen =>
    if seen.contains o then sweep m fuel work seen
    else match h.site? o with
      | none => false
      | some s =>
        if s.parent = m then sweep m fuel work (o :: seen)
        else match h.uses s.parent with
          | [] => false
          | us => sweep m fuel (us.map Site.op ++ work) (o :: seen)

/-- Whether every chain upwards from the given instances meets `m`. Each instance is expanded once,
by no more edges than there are. -/
def allUnder (os : List OpId) (m : ModuleId) : Bool :=
  h.sweep m (os.length + h.edges.length * h.edges.length) os []

end Hierarchy

end AnnotatedCircuit
