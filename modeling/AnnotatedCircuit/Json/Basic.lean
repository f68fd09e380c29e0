import AnnotatedCircuit.OrderedMap
import AnnotatedCircuit.Binary64.Basic

/-!
JSON values with ordered objects.

The keys of an object are meant to be distinct, as they are in every value that is read from a text.
`Json.same` is equality up to the order of the members.
-/

namespace AnnotatedCircuit

inductive Json where
  | null
  | bool (value : Bool)
  /-- A number written without point and exponent. -/
  | int (value : Int)
  | double (value : Binary64)
  | str (value : String)
  | arr (items : List Json)
  | obj (members : List (String × Json))
deriving Inhabited

namespace Json

/-- A natural number. -/
def nat (n : Nat) : Json := .int n

/-- A value that may be absent, `null` standing for absence. -/
def ofOption {α : Type} (toJson : α → Json) : Option α → Json
  | none => .null
  | some a => toJson a

def list {α : Type} (toJson : α → Json) (as : List α) : Json := .arr (as.map toJson)

/-- An object with one member. -/
def tagged (tag : String) (content : Json) : Json := .obj [(tag, content)]

def str? : Json → Option String
  | .str s => some s
  | _ => none

def arr? : Json → Option (List Json)
  | .arr items => some items
  | _ => none

/-- The value under a key of an object. -/
def get? (key : String) : Json → Option Json
  | .obj members => OrderedMap.lookup key members
  | _ => none

mutual

/-- Equality up to the order of object members. An integer differs from every floating-point
number. -/
def same : Json → Json → Bool
  | .null, .null => true
  | .bool a, .bool b => a == b
  | .int m, .int n => m == n
  | .double x, .double y => x.same y
  | .str s, .str t => s == t
  | .arr as, .arr bs => sameItems as bs
  | .obj ms, .obj ns => ms.length == ns.length && sameMembers ms ns
  | _, _ => false

def sameItems : List Json → List Json → Bool
  | [], [] => true
  | a :: as, b :: bs => a.same b && sameItems as bs
  | _, _ => false

/-- Whether each of the members has its like among `ns`. -/
def sameMembers : List (String × Json) → List (String × Json) → Bool
  | [], _ => true
  | (k, v) :: ms, ns =>
    (match OrderedMap.lookup k ns with
      | some w => v.same w
      | none => false) && sameMembers ms ns

end

mutual

/-- The number of values in a value, itself included. -/
def size : Json → Nat
  | .arr items => 1 + sizeItems items
  | .obj members => 1 + sizeMembers members
  | _ => 1

def sizeItems : List Json → Nat
  | [] => 0
  | v :: vs => v.size + sizeItems vs

def sizeMembers : List (String × Json) → Nat
  | [] => 0
  | (_, v) :: ms => v.size + sizeMembers ms

end

mutual

/-- How many arrays and objects are nested in each other at most. -/
def depth : Json → Nat
  | .arr items => 1 + depthItems items
  | .obj members => 1 + depthMembers members
  | _ => 0

def depthItems : List Json → Nat
  | [] => 0
  | v :: vs => max v.depth (depthItems vs)

def depthMembers : List (String × Json) → Nat
  | [] => 0
  | (_, v) :: ms => max v.depth (depthMembers ms)

end

end Json

end AnnotatedCircuit
