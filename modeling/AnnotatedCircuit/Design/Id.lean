import AnnotatedCircuit.Json.Decode

/-!
Identities of the parts of a design: positions in its tables.
-/

namespace AnnotatedCircuit

structure ModuleId where
  index : Nat
deriving DecidableEq, Repr, Inhabited

/-- An operation; the identity of an instance is also that of its edge in the hierarchy. -/
structure OpId where
  index : Nat
deriving DecidableEq, Repr, Inhabited

/-- What a port or an operation defines. -/
structure ValueId where
  index : Nat
deriving DecidableEq, Repr, Inhabited

structure AnchorId where
  index : Nat
deriving DecidableEq, Repr, Inhabited

/-! In written form an identity is a word. -/

def ModuleId.toJson (m : ModuleId) : Json := Json.nat m.index
def OpId.toJson (o : OpId) : Json := Json.nat o.index
def ValueId.toJson (v : ValueId) : Json := Json.nat v.index
def AnchorId.toJson (a : AnchorId) : Json := Json.nat a.index

def ModuleId.ofInput? (i : Json.Input) : Option ModuleId := i.word?.map ModuleId.mk
def OpId.ofInput? (i : Json.Input) : Option OpId := i.word?.map OpId.mk
def ValueId.ofInput? (i : Json.Input) : Option ValueId := i.word?.map ValueId.mk
def AnchorId.ofInput? (i : Json.Input) : Option AnchorId := i.word?.map AnchorId.mk

end AnnotatedCircuit
