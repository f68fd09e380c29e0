import AnnotatedCircuit.Json.Input
import AnnotatedCircuit.Word

/-!
Reading domain values out of JSON.

A record is written as an object or as the list of its fields in order; an alternative is written as
its name alone or as an object with its name as the only key, over an object of its fields if it has
named ones. In a text, though not in a value, these fields may be listed in order as well. Members
that a record does not know are skipped, a field given twice is refused.
-/

namespace AnnotatedCircuit.Json.Input

/-- A natural number below `bound`. -/
def natBelow? (bound : Nat) : Input → Option Nat
  | .value (.int n) => if 0 ≤ n ∧ n.toNat < bound then some n.toNat else none
  | _ => none

/-- A 32-bit word. -/
def word? : Input → Option Nat := natBelow? Word.limit

/-- An index into a list, which has twice the width of a word. -/
def index? : Input → Option Nat := natBelow? (Word.limit * Word.limit)

def bool? : Input → Option Bool
  | .value (.bool b) => some b
  | _ => none

def str? : Input → Option String
  | .value (.str s) => some s
  | _ => none

def list? {α : Type} (decode : Input → Option α) (i : Input) : Option (List α) :=
  i.items?.bind (·.mapM decode)

/-- A value or `null`. -/
def nullable? {α : Type} (decode : Input → Option α) : Input → Option (Option α)
  | .value .null => some none
  | i => (decode i).map some

/-- The members of an object with decoded values. -/
def dictionary? {α : Type} (decode : Input → Option α) (i : Input) : Option (List (String × α)) :=
  i.members?.bind (·.mapM fun (k, v) => (decode v).map (k, ·))

/-- The fields of an object, in the order of their names; a field that is not given is `none`. -/
def namedFields? (names : List String) (members : List (String × Input)) :
    Option (List (Option Input)) :=
  names.mapM fun name =>
    match members.filter fun m => m.1 == name with
    | [] => some none
    | [m] => some (some m.2)
    | _ => none

/-- The fields of a record. A list of them may leave out some at its end. -/
def fields? (names : List String) (i : Input) : Option (List (Option Input)) :=
  match i.members?, i.items? with
  | some members, _ => namedFields? names members
  | none, some items =>
    if items.length ≤ names.length then some ((List.range names.length).map (items[·]?)) else none
  | none, none => none

/-- The fields of a record of which none may be absent. -/
def allFields? (names : List String) (i : Input) : Option (List Input) :=
  (i.fields? names).bind (·.mapM id)

/-- The fields of an alternative. A list of them, which only a text may have in this place, leaves
out none. -/
def contentFields? (names : List String) (i : Input) : Option (List (Option Input)) :=
  match i, i.members? with
  | .arr items, _ => if items.length = names.length then some (items.map some) else none
  | _, some members => namedFields? names members
  | _, none => none

/-- The fields of an alternative of which none may be absent. -/
def allContentFields? (names : List String) (i : Input) : Option (List Input) :=
  (i.contentFields? names).bind (·.mapM id)

/-- The name of an alternative and its content, if it has one. -/
def alternative? (i : Input) : Option (String × Option Input) :=
  match i.str?, i.members? with
  | some tag, _ => some (tag, none)
  | none, some [(tag, content)] => some (tag, some content)
  | none, _ => none

/-- An alternative without content: its name, or an object that has `null` under it. -/
def tag? (i : Input) : Option String :=
  match i.alternative? with
  | some (tag, none) => some tag
  | some (tag, some (.value .null)) => some tag
  | _ => none

/-- A field that may be absent; a field that is given has to be readable. -/
def orDefault? {α : Type} (default : α) (decode : Input → Option α) : Option Input → Option α
  | none => some default
  | some i => decode i

end AnnotatedCircuit.Json.Input
