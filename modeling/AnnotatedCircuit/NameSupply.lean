import AnnotatedCircuit.OrderedMap
import AnnotatedCircuit.Word
import AnnotatedCircuit.Json.Decode

/-!
Supplies of names that do not collide.

The first request for a hint answers the hint itself, later ones `hint_0`, `hint_1`, … as far as
they are free. The next suffix of each hint is kept as a word, so a supply can run dry with an
overflow.
-/

namespace AnnotatedCircuit

structure NameSupply where
  /-- The names in use. Their order means nothing. -/
  used : List String
  /-- For each hint that collided once, the first suffix not tried yet. -/
  nextSuffix : OrderedMap String Nat
deriving Inhabited

namespace NameSupply

def empty : NameSupply := ⟨[], .empty⟩

def contains (s : NameSupply) (name : String) : Bool := s.used.contains name

/-- Mark a name as used. -/
def add (s : NameSupply) (name : String) : NameSupply :=
  if s.contains name then s else { s with used := name :: s.used }

/-- Mark every name of a list as used. -/
def addAll (s : NameSupply) (names : List String) : NameSupply := names.foldl add s

def ofNames (names : List String) : NameSupply := empty.addAll names

/-- The candidate for a hint with a suffix. -/
def candidate (hint : String) (suffix : Nat) : String := hint ++ "_" ++ toString suffix

/-- The first suffix from `k` on whose candidate is free. A suffix whose successor is no word
overflows, whether its candidate is free or not. -/
def freeSuffix (used : List String) (hint : String) (k : Nat) : Except Overflow Nat :=
  if k + 1 < Word.limit then
    if used.contains (candidate hint k) then freeSuffix used hint (k + 1) else .ok k
  else .error .add
termination_by Word.limit - k
decreasing_by omega

/-- A free name for `hint`, and the supply in which it is used. -/
def fresh (s : NameSupply) (hint : String) : Except Overflow (String × NameSupply) :=
  if s.contains hint then do
    let k ← freeSuffix s.used hint ((s.nextSuffix.find? hint).getD 0)
    let name := candidate hint k
    return (name, { used := name :: s.used, nextSuffix := s.nextSuffix.insert hint (k + 1) })
  else
    .ok (hint, s.add hint)

/-- Insert into an ascending list. -/
def insertAscending (name : String) : List String → List String
  | [] => [name]
  | n :: ns => if n < name then n :: insertAscending name ns else name :: n :: ns

/-- Names in ascending order of their code points. -/
def ascending (names : List String) : List String := names.foldr insertAscending []

/-- The written form lists names and hints in ascending order. -/
def toJson (s : NameSupply) : Json :=
  .obj [("used", Json.list .str (ascending s.used)),
    ("next_suffix", .obj ((ascending s.nextSuffix.keys).map fun hint =>
      (hint, Json.nat ((s.nextSuffix.find? hint).getD 0))))]

def ofInput? (i : Json.Input) : Option NameSupply :=
  match i.allFields? ["used", "next_suffix"] with
  | some [used, nextSuffix] => do
    let names ← used.list? Json.Input.str?
    let suffixes ← nextSuffix.dictionary? Json.Input.word?
    return { ofNames names with nextSuffix := .ofList suffixes }
  | _ => none

end NameSupply

end AnnotatedCircuit
