import AnnotatedCircuit.Attempt
import AnnotatedCircuit.Design.Edit

/-!
Anchors shared between equal routes: each pair of a route and a leaf module gets one anchor. A pool
is asked for them beside the design in which they are registered.
-/

namespace AnnotatedCircuit

structure AnchorPool where
  /-- The anchors made, under their route and leaf. -/
  anchors : OrderedMap (List OpId × ModuleId) AnchorId
  /-- How many requests were met by an anchor made before. -/
  reused : Nat
deriving Inhabited

namespace AnchorPool

def empty : AnchorPool := ⟨.empty, 0⟩

/-- A step of the route by the names of the instance and of the module that holds it. -/
def step (d : Design) (o : OpId) : Except DesignError PathStep := do
  let op ← d.op o
  return ⟨← d.moduleName op.parent, op.kind.name?.getD ""⟩

/-- A question to the design. -/
def ask {α : Type} (question : Design → Except DesignError α) :
    Attempt (AnchorPool × Design) α := do
  .ofDesign (question (← get).2)

/-- The anchor for a route down to a leaf module. A new one is registered in the design, and then
kept in the pool. -/
def internRoute (route : List OpId) (leaf : ModuleId) : Attempt (AnchorPool × Design) AnchorId := do
  match (← get).1.anchors.find? (route, leaf) with
  | some a =>
    modify fun (pool, d) => ({ pool with reused := pool.reused + 1 }, d)
    return a
  | none =>
    let path ← ask fun d => route.mapM (step d)
    let leafName ← ask (·.moduleName leaf)
    let (a, d) ← .ofChecked ((← get).2.newAnchor "nla" path leafName)
    modify fun (pool, _) => (pool, d)
    modify fun (pool, d) => ({ pool with anchors := pool.anchors.insert (route, leaf) a }, d)
    return a

/-- The same for a caller who keeps nothing of a request that fails. -/
def intern (pool : AnchorPool) (d : Design) (route : List OpId) (leaf : ModuleId) :
    Except Halt (AnchorId × AnchorPool × Design) :=
  match internRoute route leaf (pool, d) with
  | .ok a (pool, d) => .ok (a, pool, d)
  | .error e _ => .error e

end AnchorPool

end AnnotatedCircuit
