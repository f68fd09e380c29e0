import AnnotatedCircuit.Json.Basic

/-!
What a decoder reads: a value, or the tree of a text of which the parts are not values yet.

A text may hold parts that spell no value. They do no harm where nobody reads them, so the tree has
a mark in their place. An object of a text keeps its members as they are written, also under a
repeated key; `Input.value?` gives each key its first place and its last value.
-/

namespace AnnotatedCircuit.Json

inductive Input where
  /-- A value, whose parts are values. -/
  | value (v : Json)
  /-- An array of a text. -/
  | arr (items : List Input)
  /-- An object of a text. -/
  | obj (members : List (String × Input))
  /-- A part of a text that spells no value: a number beyond the finite range, a string or a key
  with half a surrogate pair, brackets nested too deep. -/
  | unreadable
deriving Inhabited

namespace Input

mutual

/-- The value that is written, unless some part of it is unreadable. -/
def value? : Input → Option Json
  | .value v => some v
  | .arr items => (valueItems? items).map .arr
  | .obj members => (valueMembers? members).map fun ms => .obj (OrderedMap.ofList ms).entries
  | .unreadable => none

def valueItems? : List Input → Option (List Json)
  | [] => some []
  | i :: rest => do return (← i.value?) :: (← valueItems? rest)

def valueMembers? : List (String × Input) → Option (List (String × Json))
  | [] => some []
  | (k, i) :: rest => do return (k, ← i.value?) :: (← valueMembers? rest)

end

mutual

/-- How many arrays and objects are nested in each other at most. -/
def depth : Input → Nat
  | .value v => v.depth
  | .arr items => 1 + depthItems items
  | .obj members => 1 + depthMembers members
  | .unreadable => 0

def depthItems : List Input → Nat
  | [] => 0
  | i :: rest => max i.depth (depthItems rest)

def depthMembers : List (String × Input) → Nat
  | [] => 0
  | (_, i) :: rest => max i.depth (depthMembers rest)

end

@[simp] theorem value?_value (v : Json) : (Input.value v).value? = some v := by
  simp [value?]

@[simp] theorem value?_unreadable : Input.unreadable.value? = none := by
  simp [value?]

/-- The items of an array. -/
def items? : Input → Option (List Input)
  | .value (.arr items) => some (items.map .value)
  | .arr items => some items
  | _ => none

/-- The members of an object. -/
def members? : Input → Option (List (String × Input))
  | .value (.obj members) => some (members.map fun m => (m.1, .value m.2))
  | .obj members => some members
  | _ => none

end Input

end AnnotatedCircuit.Json
