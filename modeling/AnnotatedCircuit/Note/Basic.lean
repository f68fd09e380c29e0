import AnnotatedCircuit.Json.Decode
import AnnotatedCircuit.Json.Printer

/-!
Notes: the annotations of a circuit. A note has ordered fields with JSON values, among them its
class.
-/

namespace AnnotatedCircuit

structure Note where
  fields : OrderedMap String Json
deriving Inhabited

namespace Note

/-- The field that holds the class. -/
def classField : String := "class"

/-- The field that holds the path of the target. -/
def targetField : String := "target"

/-- The field for the number of the annotated part of an aggregate. -/
def fieldIdField : String := "circt.fieldID"

/-- The field for the name of the anchor of a target that was reached through instances. -/
def nonlocalField : String := "circt.nonlocal"

def empty : Note := ⟨.empty⟩

/-- Store a field, in the place of the former value if there is one. -/
def insert (a : Note) (key : String) (value : Json) : Note :=
  ⟨a.fields.insert key value⟩

def ofClass (className : String) : Note := empty.insert classField (.str className)

def ofClassAndTarget (className target : String) : Note :=
  (ofClass className).insert targetField (.str target)

def get? (a : Note) (key : String) : Option Json := a.fields.find? key

/-- The value of a field if it is a string. -/
def str? (a : Note) (key : String) : Option String := (a.get? key).bind Json.str?

/-- The class, if the note has one. -/
def class? (a : Note) : Option String := a.str? classField

def toJson (a : Note) : Json := .obj a.fields.entries

/-- An object is a note if its members are values, nothing else is. -/
def ofInput? (i : Json.Input) : Option Note :=
  (i.dictionary? Json.Input.value?).map fun members => ⟨.ofList members⟩

/-- The text of a note. -/
def text (a : Note) : String := a.toJson.compress

/-- Equality up to the order of the fields. -/
def same (a b : Note) : Bool := a.toJson.same b.toJson

end Note

end AnnotatedCircuit
