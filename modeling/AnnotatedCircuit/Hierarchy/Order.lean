import AnnotatedCircuit.Hierarchy.Basic

/-!
Orders of the modules and cycles among them, by depth-first search.

`Hierarchy.childrenFirst` lists what is below the top first and then the other modules;
`Hierarchy.cycle?` names a module on a cycle of instances; `Hierarchy.ofDesign` builds the hierarchy
of a design that has no cycle.
-/

namespace AnnotatedCircuit

namespace Hierarchy

/-- A depth-first search under way. -/
structure Walk where
  /-- The modules entered, last one first. -/
  seen : List ModuleId
  /-- The modules left, in this order. -/
  finished : List ModuleId
deriving DecidableEq, Repr, Inhabited

variable (h : Hierarchy)

/-- Search from a module, its children in the order of their instances. Every call on the way down
enters a new module, which bounds the depth. -/
def visit : (fuel : Nat) → ModuleId → Walk → Walk
  | 0, _, w => w
  | fuel + 1, m, w =>
    if w.seen.contains m then w
    else
      let w' := (h.children m).foldl (fun w c => visit fuel c w) { w with seen := m :: w.seen }
      { w' with finished := w'.finished ++ [m] }

def fuel : Nat := h.modules.length + 1

/-- Search from each module of a list. -/
def walk (ms : List ModuleId) (w : Walk) : Walk := ms.foldl (fun w m => h.visit h.fuel m w) w

/-- Search from each module of a list in design order. A module whose identity a later one shares
has no edges and is listed by itself. -/
def walkAll : List ModuleId → Walk → Walk
  | [], w => w
  | m :: ms, w =>
    walkAll ms (if ms.contains m then { w with finished := w.finished ++ [m] }
      else h.visit h.fuel m w)

/-- All modules, every module behind those that it instantiates: first those below the top, then the
others in the order of the design. -/
def childrenFirst : List ModuleId :=
  if h.ids.contains h.top then (h.walkAll h.ids (h.walk [h.top] ⟨[], []⟩)).finished else []

/-- Among modules of which every one should come behind its parents, find the first that has a
parent behind it, and answer that parent. -/
def lateParent? : (done rest : List ModuleId) → Option ModuleId
  | _, [] => none
  | done, m :: rest =>
    match (h.uses m).find? fun s => !(m :: done).contains s.parent with
    | some s => some s.parent
    | none => lateParent? (m :: done) rest

/-- The last occurrence of each module. -/
def lastOccurrences : List ModuleId → List ModuleId
  | [] => []
  | m :: ms => if ms.contains m then lastOccurrences ms else m :: lastOccurrences ms

/-- A module on a cycle: the first one entered that instantiates itself, else a parent that the
search left before its child. -/
def cycle? : Option ModuleId :=
  let w := h.walk (lastOccurrences h.ids) ⟨[], []⟩
  match w.seen.reverse.find? fun m => (h.children m).contains m with
  | some m => some m
  | none => h.lateParent? [] w.finished.reverse

/-- The instances in a body; each child has to be a module of the design. -/
def sitesIn (d : Design) (m : Module) : Except DesignError (List Site) :=
  (d.instancesIn m.id).filterMapM fun op =>
    match op.kind.child? with
    | none => .ok none
    | some child =>
      if d.modules.any (·.id == child) then .ok (some ⟨op.id, m.id, child⟩)
      else .error (.unknownModule child)

/-- The hierarchy of a design without cycles. -/
def ofDesign (d : Design) : Except DesignError Hierarchy := do
  let sites ← d.modules.mapM (sitesIn d)
  let h : Hierarchy :=
    ⟨d.top, d.modules.map fun m => (m.name, m.id), sites.flatten.foldl enter []⟩
  match h.cycle? with
  | none => return h
  | some m => throw (.instanceCycle (← d.moduleName m))

end Hierarchy

end AnnotatedCircuit
