import AnnotatedCircuit.Failure

/-!
What a lowering reports: its counts, and one diagnostic for each failure.
-/

namespace AnnotatedCircuit

structure Statistics where
  /-- The notes of the design. -/
  raw : Nat := 0
  /-- The notes that handlers made. -/
  added : Nat := 0
  total : Nat := 0
  /-- The routes that had an anchor already. -/
  reusedAnchors : Nat := 0
  /-- The notes whose class had no handler. -/
  unhandled : Nat := 0
  requests : Nat := 0
  ports : Nat := 0
  instances : Nat := 0
  failures : Nat := 0
deriving DecidableEq, Repr, Inhabited

def Statistics.toJson (s : Statistics) : Json :=
  .obj [("raw_annotations", Json.nat s.raw), ("added_annotations", Json.nat s.added),
    ("total_annotations", Json.nat s.total), ("reused_hier_paths", Json.nat s.reusedAnchors),
    ("unhandled_annotations", Json.nat s.unhandled), ("wiring_problems", Json.nat s.requests),
    ("ports_added", Json.nat s.ports), ("instances_replaced", Json.nat s.instances),
    ("failures", Json.nat s.failures)]

/-- A failure, with the note that was being lowered. -/
structure Diagnostic where
  error : LowerError
  note : Option Note

namespace Diagnostic

/-- The lines of a diagnostic; the note is shown on a second line. -/
def lines (d : Diagnostic) : List String :=
  ("error: " ++ d.error.message) ::
    match d.note with
    | none => []
    | some n => ["  note: see current annotation: " ++ n.text]

def text (d : Diagnostic) : String := String.intercalate "\n" d.lines

end Diagnostic

structure Report where
  statistics : Statistics
  diagnostics : List Diagnostic
deriving Inhabited

namespace Report

def succeeded (r : Report) : Bool := r.diagnostics.isEmpty

/-- How many failures there were, in words. -/
def summary (r : Report) : String :=
  "annotation lowering failed with " ++ toString r.diagnostics.length ++ " error(s)"

end Report

end AnnotatedCircuit
