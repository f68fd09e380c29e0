import AnnotatedCircuit.Design.Id

/-!
What can be wrong with a design, or with a request to one.
-/

namespace AnnotatedCircuit

/-- A violated rule of the structure of a design. -/
inductive Inconsistency where
  | duplicateModule (name : String)
  /-- A port was to be added to a module that has instances already. -/
  | portOfInstantiated (port module : String)
  | wrongBody (op : OpId) (module : String)
  | foreignValue (value : ValueId) (owner user : String)
  | resultCount (op : OpId) (results : Nat) (child : String) (ports : Nat)
  /-- A module has a port or a closing end for a request, but no value to connect it with. -/
  | noEndpoint (request : Nat) (module : String)
  | unregisteredAnchor (anchor : AnchorId)
deriving DecidableEq, Repr

namespace Inconsistency

def message : Inconsistency → String
  | duplicateModule name => "duplicate module name '" ++ name ++ "'"
  | portOfInstantiated port m =>
    "cannot add port '" ++ port ++ "' to already instantiated module '" ++ m ++ "'"
  | wrongBody op m => "op " ++ toString op.index ++ " listed in wrong body '" ++ m ++ "'"
  | foreignValue value owner user =>
    "value " ++ toString value.index ++ " belongs to '" ++ owner ++ "' but is used in '" ++ user
      ++ "'"
  | resultCount op results child ports =>
    "instance op " ++ toString op.index ++ " has " ++ toString results ++ " results but '" ++ child
      ++ "' has " ++ toString ports ++ " ports"
  | noEndpoint request m =>
    "no value for wiring problem " ++ toString request ++ " in module '" ++ m ++ "'"
  | unregisteredAnchor anchor => "anchor " ++ toString anchor.index ++ " was not registered"

end Inconsistency

inductive DesignError where
  | noModuleNamed (name : String)
  | unknownModule (id : ModuleId)
  /-- The operation never existed or was removed. -/
  | unknownOp (id : OpId)
  | unknownValue (id : ValueId)
  | notAnInstance (id : OpId)
  /-- The instance is no edge of the hierarchy. -/
  | unknownEdge (id : OpId)
  /-- A module instantiates itself, perhaps through others. -/
  | instanceCycle (module : String)
  | inconsistent (cause : Inconsistency)
deriving DecidableEq, Repr

namespace DesignError

def message : DesignError → String
  | noModuleNamed name => "module not found: '" ++ name ++ "'"
  | unknownModule id => "module not found: ModuleId(" ++ toString id.index ++ ")"
  | unknownOp id => "operation not found: OpId(" ++ toString id.index ++ ")"
  | unknownValue id => "value not found: ValueId(" ++ toString id.index ++ ")"
  | notAnInstance id => "operation OpId(" ++ toString id.index ++ ") is not an instance"
  | unknownEdge id =>
    "instance OpId(" ++ toString id.index ++ ") is not recorded in the instance graph"
  | instanceCycle m => "instance cycle through module '" ++ m ++ "'"
  | inconsistent cause => "graph inconsistency: " ++ cause.message

end DesignError

end AnnotatedCircuit
