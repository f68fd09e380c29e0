import AnnotatedCircuit.Json.Decode

/-!
How tolerant a lowering is of annotations that it has no handler for.
-/

namespace AnnotatedCircuit

structure LowerOptions where
  /-- Give an annotation of an unknown class to the handler of the fallback class. -/
  ignoreUnhandled : Bool := false
  /-- Treat an annotation without a class as one of the fallback class. -/
  ignoreClassless : Bool := false
  fallbackClass : String := "circt.missing"
deriving DecidableEq, Repr, Inhabited

namespace LowerOptions

def toJson (o : LowerOptions) : Json :=
  .obj [("ignoreUnhandled", .bool o.ignoreUnhandled), ("ignoreClassless", .bool o.ignoreClassless),
    ("fallbackClass", .str o.fallbackClass)]

/-- Read options; those that are not given keep their defaults. -/
def ofInput? (i : Json.Input) : Option LowerOptions :=
  match i.fields? ["ignoreUnhandled", "ignoreClassless", "fallbackClass"] with
  | some [unhandled, classless, fallback] => do
    return {
      ignoreUnhandled := ← Json.Input.orDefault? false Json.Input.bool? unhandled
      ignoreClassless := ← Json.Input.orDefault? false Json.Input.bool? classless
      fallbackClass := ← Json.Input.orDefault? "circt.missing" Json.Input.str? fallback }
  | _ => none

end LowerOptions

end AnnotatedCircuit
