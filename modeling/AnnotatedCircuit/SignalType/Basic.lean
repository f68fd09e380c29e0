/-!
Types of the signals that ports and operations carry.

Ground types are integers, clocks and resets. A bundle has named fields, a vector repeats one
element type, and a reference lets a value be observed from elsewhere in the hierarchy.
-/

namespace AnnotatedCircuit

mutual

inductive SignalType where
  /-- An unsigned integer; without a width, the width is still to be found. -/
  | uint (width : Option Nat)
  | sint (width : Option Nat)
  | clock
  | reset
  | asyncReset
  | bundle (fields : Fields)
  | vector (element : SignalType) (length : Nat)
  | ref (target : SignalType)
deriving DecidableEq

/-- The fields of a bundle in order. A flipped field flows against the direction of the bundle. -/
inductive Fields where
  | nil
  | cons (name : String) (flipped : Bool) (type : SignalType) (rest : Fields)
deriving DecidableEq

end

instance : Inhabited SignalType := ⟨.clock⟩

instance : Inhabited Fields := ⟨.nil⟩

namespace SignalType

def isRef : SignalType → Bool
  | .ref _ => true
  | _ => false

def isGround : SignalType → Bool
  | .bundle _ | .vector .. | .ref _ => false
  | _ => true

/-- The type of references to this type. A reference is its own reference type. -/
def toRef : SignalType → SignalType
  | .ref t => .ref t
  | t => .ref t

/-- The type behind a reference; any other type is unchanged. -/
def deref : SignalType → SignalType
  | .ref t => t
  | t => t

@[simp] theorem isRef_toRef (t : SignalType) : t.toRef.isRef = true := by
  cases t <;> rfl

@[simp] theorem toRef_toRef (t : SignalType) : t.toRef.toRef = t.toRef := by
  cases t <;> rfl

end SignalType

/-- The direction of a port, seen from inside its module. -/
inductive Direction where
  | input
  | output
deriving DecidableEq, Repr, Inhabited

namespace Direction

def flip : Direction → Direction
  | input => output
  | output => input

@[simp] theorem flip_flip (d : Direction) : d.flip.flip = d := by
  cases d <;> rfl

end Direction

end AnnotatedCircuit
