import AnnotatedCircuit.SignalType.Basic
import AnnotatedCircuit.Word

/-!
Field numbers: the parts of a type counted in pre-order.

The whole type is field 0. Each field of a bundle and each element of a vector takes as many numbers
as it has parts, itself included; a reference is transparent. Numbers are words, so the functions
here report an overflow at the first sum or product that does not fit.
-/

namespace AnnotatedCircuit

mutual

/-- The greatest field number of a type. -/
def SignalType.lastField : SignalType → Except Overflow Nat
  | .bundle fs => fs.lastField 0
  | .vector element length => do Word.mul length (← Word.add 1 (← element.lastField))
  | .ref target => target.lastField
  | _ => .ok 0

/-- The greatest field number when the fields are numbered on from `last`. -/
def Fields.lastField (last : Nat) : Fields → Except Overflow Nat
  | .nil => .ok last
  | .cons _ _ type rest => do
    let parts ← Word.add 1 (← type.lastField)
    rest.lastField (← Word.add last parts)

end

/-- The first field called `name` and its number, when the fields are numbered from `next` on. -/
def Fields.find? (name : String) (next : Nat) : Fields → Except Overflow (Option (Nat × SignalType))
  | .nil => .ok none
  | .cons n _ type rest =>
    if n = name then .ok (some (next, type))
    else do
      let parts ← Word.add 1 (← type.lastField)
      rest.find? name (← Word.add next parts)

/-- One step from a type to a part of it. -/
inductive Access where
  | field (name : String)
  | index (n : Nat)
deriving DecidableEq, Repr, Inhabited

namespace SignalType

/-- The field of a bundle, with its number relative to the bundle. -/
def field? (name : String) : SignalType → Except Overflow (Option (Nat × SignalType))
  | .bundle fs => fs.find? name 1
  | _ => .ok none

/-- The element of a vector, with its number relative to the vector. -/
def element? (n : Nat) : SignalType → Except Overflow (Option (Nat × SignalType))
  | .vector element length =>
    if n < length then do
      let before ← Word.mul n (← Word.add 1 (← element.lastField))
      return some (← Word.add 1 before, element)
    else .ok none
  | _ => .ok none

def part? (t : SignalType) : Access → Except Overflow (Option (Nat × SignalType))
  | .field name => t.field? name
  | .index n => t.element? n

/-- The number of the part that a chain of accesses leads to, counted on from `number`. References
on the way are passed through. -/
def fieldIdFrom (t : SignalType) (number : Nat) : List Access → Except Overflow (Option Nat)
  | [] => .ok (some number)
  | a :: rest => do
    match ← t.deref.part? a with
    | none => return none
    | some (offset, sub) => sub.fieldIdFrom (← Word.add number offset) rest

/-- The number of the part that a chain of accesses leads to. -/
def fieldId? (t : SignalType) (accesses : List Access) : Except Overflow (Option Nat) :=
  t.fieldIdFrom 0 accesses

end SignalType

end AnnotatedCircuit
