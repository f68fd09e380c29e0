import AnnotatedCircuit.Hierarchy.Order

/-!
The paths from the top of a hierarchy to its modules.

A path lists the instances passed, outermost first. The paths of a module are those of its parents,
each extended by the instance; `PathTable` remembers the lists that were asked for and keeps them up
to date when an instance is replaced.
-/

namespace AnnotatedCircuit

/-- The instances from the top downwards. -/
abbrev InstPath := List OpId

namespace PathTable

/-- The lists of paths that are known already. -/
abbrev Memo := OrderedMap ModuleId (List InstPath)

/-- The paths to a module and the lists known then. In a hierarchy without cycles a call for every
module is deep enough. -/
def collect (h : Hierarchy) : (fuel : Nat) → ModuleId → Memo → List InstPath × Memo
  | 0, _, memo => ([], memo)
  | fuel + 1, m, memo =>
    if m = h.top then ([[]], memo)
    else match memo.find? m with
      | some ps => (ps, memo)
      | none =>
        let (ps, memo) := (h.uses m).foldl (fun (ps, memo) s =>
          let (qs, memo) := collect h fuel s.parent memo
          (ps ++ qs.map (· ++ [s.op]), memo)) ([], memo)
        (ps, memo.insert m ps)

end PathTable

structure PathTable where
  hierarchy : Hierarchy
  memo : PathTable.Memo
deriving Inhabited

namespace PathTable

def ofHierarchy (h : Hierarchy) : PathTable := ⟨h, .empty⟩

/-- The paths to a module, in the order of the instances on them. -/
def paths (t : PathTable) (m : ModuleId) : List InstPath × PathTable :=
  let (ps, memo) := collect t.hierarchy t.hierarchy.fuel m t.memo
  (ps, { t with memo })

/-- Replace an instance in the hierarchy and in every known path. -/
def replace (t : PathTable) (old new : OpId) : Except DesignError PathTable := do
  let h ← t.hierarchy.replace old new
  let rename : OpId → OpId := fun o => if o = old then new else o
  return ⟨h, t.memo.mapValues fun ps => ps.map (·.map rename)⟩

end PathTable

namespace Design

/-- A step of a written path: the instance and its module. -/
def renderStep (d : Design) (o : OpId) : Except DesignError String := do
  match (← d.op o).kind with
  | .inst name child => return "/" ++ name ++ ":" ++ (← d.moduleName child)
  | _ => throw (.notAnInstance o)

/-- A path written with the names of its instances and modules, from the top on. -/
def renderPath (d : Design) (p : InstPath) : Except DesignError String := do
  return (← d.moduleName d.top) ++ String.join (← p.mapM d.renderStep)

end Design

end AnnotatedCircuit
