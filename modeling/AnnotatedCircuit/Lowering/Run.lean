import AnnotatedCircuit.Lowering.Handler
import AnnotatedCircuit.Lowering.Options
import AnnotatedCircuit.Lowering.Report
import AnnotatedCircuit.Wiring.Realize

/-!
Lowering all notes of a design.

The notes are handled in order, each one followed by the notes that its handler makes. Then every
pin becomes one wire request for each of its sinks, and the requests are planned and carried out. A
failure ends the step that it occurs in and is reported; only an overflow ends the lowering.
-/

namespace AnnotatedCircuit

/-- Why a lowering did not come to its end. -/
inductive Abort where
  | overflow (cause : Overflow)
  /-- The handlers made more notes than the budget allows. -/
  | exhausted
deriving DecidableEq, Repr

namespace Lowering

variable (options : LowerOptions) (handlers : Handlers)

/-- The class under which a note is handled. -/
def classOf (n : Note) : Lowering String :=
  match n.class? with
  | some c => pure c
  | none => if options.ignoreClassless then pure options.fallbackClass else .fail .classless

/-- The handler of a class; where unknown classes are tolerated, that of the fallback class. -/
def handlerOf (className : String) : Lowering Handler := do
  match handlers.find? className with
  | some h => return h
  | none =>
    modify fun s => { s with unhandled := s.unhandled + 1 }
    if !options.ignoreUnhandled then
      .fail (.unhandledClass className)
    match handlers.find? options.fallbackClass with
    | some h => return h
    | none => .fail (.unhandledClass options.fallbackClass)

/-- Lower one note. -/
def lowerNote (n : Note) : Lowering Unit := do
  let h ← handlerOf options handlers (← classOf options n)
  h.apply (← h.locate n) n

/-- Lower notes until none is left, at most as many as the budget allows. -/
def drain : (budget : Nat) → List Note → LowerState →
    Except Abort (LowerState × List Diagnostic)
  | _, [], s => .ok (s, [])
  | 0, _ :: _, _ => .error .exhausted
  | budget + 1, n :: rest, s =>
    match lowerNote options handlers n s with
    | .ok _ s => drain budget (s.spawned ++ rest) { s with spawned := [] }
    | .error (.failure e) s => do
      let (s, ds) ← drain budget (s.spawned ++ rest) { s with spawned := [] }
      return (s, ⟨e, some n⟩ :: ds)
    | .error (.overflow o) _ => .error (.overflow o)

/-- The requests of a pin, one for each sink. -/
def requestsOfPin : String × Pin → List WireRequest
  | (name, pin) =>
    match pin.source with
    | none => []
    | some source => pin.sinks.map fun sink => ⟨source, sink, false, name⟩

/-- A pin with sinks needs a source. -/
def faultOfPin? : String × Pin → Option Diagnostic
  | (name, pin) =>
    if pin.source.isNone && !pin.sinks.isEmpty then
      some ⟨.rejected Handlers.pinSinkClass (.sinksWithoutSource name), none⟩
    else none

/-- Plan and carry out the requests, and report. -/
def finish (raw : Nat) (s : LowerState) (ds : List Diagnostic) :
    Except Overflow (Report × Design) := do
  let requests := s.requests ++ s.pins.entries.flatMap requestsOfPin
  let (planning, planErrors) ← Wiring.plan s.design s.table requests
  let done := Wiring.realize s.design planning.table planning.plan
  let diagnostics := ds ++ s.pins.entries.filterMap faultOfPin? ++
    planErrors.map (⟨·, none⟩) ++ done.errors.map fun e => ⟨.design e, none⟩
  let statistics : Statistics := {
    raw
    added := s.added
    total := raw + s.added
    reusedAnchors := s.pool.reused
    unhandled := s.unhandled
    requests := requests.length
    ports := done.counts.ports
    instances := done.counts.instances
    failures := diagnostics.length }
  return (⟨statistics, diagnostics⟩, done.design)

end Lowering

namespace Design

/-- Lower the pending notes, at most `budget` of them with those that handlers make. -/
def lowerWithin (d : Design) (options : LowerOptions) (handlers : Handlers) (budget : Nat) :
    Except Abort (Report × Design) := do
  let raw := d.pending
  let d := { d with pending := [] }
  if raw.isEmpty then
    return (⟨{}, []⟩, d)
  match Hierarchy.ofDesign d with
  | .error e => return (⟨{ raw := raw.length, failures := 1 }, [⟨.design e, none⟩]⟩, d)
  | .ok h =>
    let (s, ds) ← Lowering.drain options handlers budget raw (.start d h)
    (Lowering.finish raw.length s ds).mapError .overflow

/-- Lower the pending notes with the built-in handlers. These make no notes, so the notes that are
there are all. -/
def lower (d : Design) (options : LowerOptions) : Except Abort (Report × Design) :=
  d.lowerWithin options .builtin d.pending.length

end Design

end AnnotatedCircuit
