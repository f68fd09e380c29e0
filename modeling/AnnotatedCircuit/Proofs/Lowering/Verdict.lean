import AnnotatedCircuit.Lowering.Run
import AnnotatedCircuit.Proofs.Target.Settled

/-!
# Judging notes

Each built-in handler looks for a target in one of three scopes and takes one of five actions
(`Lowering.rules`, `builtin_eq`). So lowering a note is judging it, which asks the design and looks
at the pins, and then entering the verdict (`lowerNote_eq`). A note that needs an anchor is refused
after all where the route to its target cannot be written down. What has been lowered before is seen
by all this through the pins alone (`settleNote_asks`): a note is settled as in a new lowering with
the same pins (`Design.verdict`).
-/

namespace AnnotatedCircuit

abbrev Pins := OrderedMap String Pin

/-- What is to be done with a note that is accepted. -/
inductive Verdict where
  /-- Attach it to the entity of its target. -/
  | attach (t : Target)
  | source (pin : String) (value : ValueId)
  | sink (pin : String) (value : ValueId)
  | drop

namespace Lowering

/-! ### The rules of the built-in handlers -/

/-- What a handler takes for the target of a note. -/
inductive Scope where
  /-- The target that is named. -/
  | named
  | circuit
  /-- The target that is named if there is one, else the circuit. -/
  | namedOrCircuit

def Scope.locate : Scope → Note → Lowering Target
  | named => Lowering.locate
  | circuit => fun _ => pure .circuit
  | namedOrCircuit => locateIfGiven

inductive Action where
  | attach (allowNonLocal : Bool)
  | attachTo (allowNonLocal allowPorts : Bool) (kinds : List EntityKind)
  | drop
  | source
  | sink

namespace Action

def run : Action → Target → Note → Lowering Unit
  | attach allowNonLocal => Lowering.attach allowNonLocal
  | attachTo allowNonLocal allowPorts kinds => Lowering.attachTo allowNonLocal allowPorts kinds
  | drop => Lowering.drop
  | source => pinSource
  | sink => pinSink

/-- The pins as they are. -/
def pins : Lowering Pins := fun s => .ok s.pins s

/-- A note is attached to a target reached through instances only where this is allowed. -/
def judgeAttach (allowNonLocal : Bool) (t : Target) (n : Note) : Lowering Verdict := do
  unless allowNonLocal do
    requireLocal t n
  return .attach t

/-- What an action is going to do, which is decided without a change. -/
def judge : Action → Target → Note → Lowering Verdict
  | attach allowNonLocal, t, n => judgeAttach allowNonLocal t n
  | attachTo allowNonLocal allowPorts kinds, t, n => do
    let kind ← ask (·.entityKind t.entity)
    let fits := match kind with
      | .port => allowPorts
      | k => kinds.contains k
    if fits then judgeAttach allowNonLocal t n else reject n (.unfit kind)
  | drop, _, _ => pure .drop
  | source, t, n => do
    let (pin, v) ← pinEnd t n
    if (((← pins).find? pin).bind Pin.source).isSome then
      reject n (.secondSource pin)
    return .source pin v
  | sink, t, n => do
    let (pin, v) ← pinEnd t n
    return .sink pin v

end Action

structure Rule where
  scope : Scope
  action : Action

def Rule.handler (r : Rule) : Handler := ⟨r.scope.locate, r.action.run⟩

/-- The rules, under the class they are for. -/
def ruleList : List (String × Rule) := [
  ("circt.test", ⟨.named, .attach true⟩),
  ("circt.testLocalOnly", ⟨.named, .attach false⟩),
  ("circt.testNT", ⟨.circuit, .attach false⟩),
  ("circt.missing", ⟨.namedOrCircuit, .attach true⟩),
  ("firrtl.transforms.DontTouchAnnotation",
    ⟨.named, .attachTo true true [.op .wire, .op .node, .op .reg, .op .inst]⟩),
  ("firrtl.passes.InlineAnnotation", ⟨.named, .attachTo false false [.module]⟩),
  ("firrtl.transforms.FlattenAnnotation", ⟨.named, .attachTo false false [.module]⟩),
  ("firrtl.transforms.NoDedupAnnotation",
    ⟨.named, .attachTo false false [.module, .externalModule]⟩),
  ("sifive.enterprise.firrtl.MarkDUTAnnotation", ⟨.named, .attachTo false false [.module]⟩),
  ("firrtl.stage.RunFIRRTLTransformAnnotation", ⟨.circuit, .drop⟩),
  ("firrtl.transforms.BlackBoxTargetDirAnno", ⟨.circuit, .attachTo false false [.circuit]⟩),
  ("firrtl.passes.wiring.SourceAnnotation", ⟨.named, .source⟩),
  (Handlers.pinSinkClass, ⟨.named, .sink⟩)]

def rules : OrderedMap String Rule := .ofList ruleList


theorem builtin_eq : Handlers.builtin = rules.mapValues Rule.handler := by
  rw [rules, OrderedMap.mapValues_ofList]
  rfl

/-- The rule for a class; where unknown classes are tolerated, that of the fallback class. -/
def ruleOf (options : LowerOptions) (className : String) : Lowering Rule := do
  match rules.find? className with
  | some r => return r
  | none =>
    modify fun s => { s with unhandled := s.unhandled + 1 }
    if !options.ignoreUnhandled then
      .fail (.unhandledClass className)
    match rules.find? options.fallbackClass with
    | some r => return r
    | none => .fail (.unhandledClass options.fallbackClass)

/-- Judge a note by the rule for its class. -/
def judgeNote (options : LowerOptions) (n : Note) : Lowering Verdict := do
  let r ← ruleOf options (← classOf options n)
  r.action.judge (← r.scope.locate n) n

end Lowering

namespace Verdict

open Lowering

/-- Carry out a verdict. -/
def enter (n : Note) : Verdict → Lowering Unit
  | attach t => do
    let kept ← attachedFields t n.fields.entries .empty
    let kept := if t.fieldId = 0 then kept else kept.insert Note.fieldIdField (Json.nat t.fieldId)
    modify fun s =>
      let attachments := s.design.attachments.append t.entity [kept]
      { s with design := { s.design with attachments } }
  | source pin v =>
    modify fun s =>
      { s with pins := s.pins.update pin fun p => { p.getD {} with source := some v } }
  | sink pin v =>
    modify fun s =>
      { s with pins := s.pins.update pin fun p =>
          { p.getD {} with sinks := (p.getD {}).sinks ++ [v] } }
  | drop => pure ()

end Verdict

namespace Lowering

theorem judgeAttach_enter (allowNonLocal : Bool) (t : Target) (n : Note) :
    Lowering.attach allowNonLocal t n =
      Action.judgeAttach allowNonLocal t n >>= Verdict.enter n := by
  cases allowNonLocal
  · exact (bind_assoc (requireLocal t n) (fun _ => pure (.attach t)) (Verdict.enter n)).symm
  · rfl

/-- An action decides first and changes something only then. -/
theorem Action.run_eq (a : Action) (t : Target) (n : Note) :
    a.run t n = a.judge t n >>= Verdict.enter n := by
  cases a with
  | attach allowed => exact judgeAttach_enter allowed t n
  | attachTo allowed ports kinds =>
    simp only [run, judge, Lowering.attachTo, bind_assoc]
    have cases : ∀ (kind : EntityKind) (fits : Bool),
        (if fits then Lowering.attach allowed t n else reject n (.unfit kind)) =
          (if fits then judgeAttach allowed t n else reject n (.unfit kind)) >>=
            Verdict.enter n := by
      intro kind fits
      cases fits
      · rfl
      · exact judgeAttach_enter allowed t n
    exact bind_congr fun kind => cases kind _
  | drop => rfl
  | source =>
    simp only [run, judge, pinSource, bind_assoc]
    refine bind_congr fun (pin, v) => ?_
    funext s
    have state : (get : Lowering LowerState) s = .ok s s := rfl
    cases h : (((s.pins.find? pin).bind Pin.source).isSome) <;>
      simp only [bind, EStateM.bind, state, pins, h] <;> rfl
  | sink =>
    simp only [run, judge, pinSink, bind_assoc]
    rfl

theorem handlerOf_eq (options : LowerOptions) (className : String) :
    handlerOf options .builtin className = Rule.handler <$> ruleOf options className := by
  unfold handlerOf ruleOf
  simp only [builtin_eq, OrderedMap.find?_mapValues]
  cases rules.find? className with
  | some r => rfl
  | none =>
    funext s
    cases options.ignoreUnhandled
    · rfl
    · cases rules.find? options.fallbackClass <;> rfl

/-- A note is judged first, and what was decided is entered then. -/
theorem lowerNote_eq (options : LowerOptions) (n : Note) :
    lowerNote options .builtin n = judgeNote options n >>= Verdict.enter n := by
  simp only [lowerNote, judgeNote, handlerOf_eq, bind_assoc, map_eq_pure_bind, pure_bind]
  refine bind_congr fun c => bind_congr fun r => bind_congr fun t => ?_
  exact Action.run_eq r.action t n

/-! ### What a judgement depends on -/

theorem ask_apply (question : Design → Except DesignError α) (s : LowerState) :
    ask question s =
      ((question s.design).mapError fun e => Halt.failure (.design e)).leaving s := by
  change (Attempt.ofDesign (question s.design) : Lowering α) s = _
  cases question s.design <;> rfl

/-- A state of the lowering of a design: but for notes, anchors and symbols the design is as it
was. -/
structure Aligned (d : Design) (h : Hierarchy) (s : LowerState) : Prop where
  design : ∃ pending attachments anchors symbols,
    s.design = { d with pending, attachments, anchors, symbols }
  hierarchy : s.table.hierarchy = h
  names : s.names.Right d

theorem Aligned.start (d : Design) (h : Hierarchy) (pending : List Note) :
    Aligned d h (.start { d with pending } h) :=
  ⟨⟨_, _, _, _, rfl⟩, rfl, .empty d⟩

/-- A step that changes nothing but what is known of names and the count of unknown classes, and
whose answer depends on nothing but the design and the pins. -/
def Asks (d : Design) (h : Hierarchy) (x : Lowering α) : Prop :=
  ∃ r : Pins → Except Halt α, (∀ pins, d.Excuses (r pins)) ∧ ∀ {s : LowerState}, Aligned d h s →
    ∃ names unhandled, names.Right d ∧ x s = (r s.pins).leaving { s with names, unhandled }

namespace Asks

variable {α β : Type} {d : Design} {h : Hierarchy} {x : Lowering α} {f : α → Lowering β}

theorem pure (a : α) : Asks d h (Pure.pure a) :=
  ⟨fun _ => .ok a, fun _ => nofun, fun A => ⟨_, _, A.names, rfl⟩⟩

theorem fail (e : LowerError) : Asks d h (.fail e : Lowering α) :=
  ⟨fun _ => .error (.failure e), fun _ => nofun, fun A => ⟨_, _, A.names, rfl⟩⟩

theorem bind (hx : Asks d h x) (hf : ∀ a, Asks d h (f a)) : Asks d h (x >>= f) := by
  obtain ⟨r, hexc, hr⟩ := hx
  choose r' hexc' hr' using hf
  refine ⟨fun pins => r pins >>= fun a => r' a pins, fun pins o ho => ?_, fun {s} A => ?_⟩
  · dsimp only at ho
    cases hp : r pins with
    | ok a =>
      rw [hp] at ho
      exact hexc' a pins o ho
    | error e =>
      rw [hp] at ho
      cases ho
      exact hexc pins o hp
  · obtain ⟨names, unhandled, N, h⟩ := hr A
    cases hp : r s.pins with
    | error e =>
      rw [hp] at h
      refine ⟨names, unhandled, N, (EStateM.bind_of_error h).trans ?_⟩
      dsimp only
      rw [hp]
      rfl
    | ok a =>
      rw [hp] at h
      obtain ⟨names', unhandled', N', h'⟩ :=
        hr' a (s := { s with names, unhandled }) ⟨A.design, A.hierarchy, N⟩
      refine ⟨names', unhandled', N', (EStateM.bind_of_ok h).trans (h'.trans ?_)⟩
      dsimp only
      rw [hp]
      rfl

/-- A question that does not depend on notes, anchors and symbols. -/
theorem ask {question : Design → Except DesignError α}
    (same : ∀ pending attachments anchors symbols,
      question { d with pending, attachments, anchors, symbols } = question d) :
    Asks d h (Lowering.ask question) := by
  refine ⟨fun _ => (question d).mapError fun e => .failure (.design e), fun _ o ho => ?_,
    fun {s} A => ⟨_, s.unhandled, A.names, ?_⟩⟩
  · cases hq : question d <;> simp [hq, Except.mapError] at ho
  · obtain ⟨_, _, _, _, hd⟩ := A.design
    have hs : question s.design = question d := hd ▸ same ..
    rw [ask_apply, hs]

theorem pins : Asks d h Action.pins :=
  ⟨.ok, fun _ => nofun, fun A => ⟨_, _, A.names, rfl⟩⟩

/-- The names that are looked up are kept. -/
theorem locatePath (path : String) : Asks d h (Lowering.locatePath path) := by
  unfold Lowering.locatePath
  dsimp only
  cases hp : TargetPath.parse? (TargetPath.canonical path) with
  | none => exact fail _
  | some p =>
    obtain ⟨r, hexc, hr⟩ := TargetPath.resolve_settled (d := d) (h := h)
      (TargetPath.canonical path) p
    refine ⟨fun _ => r, fun _ => hexc, fun {s} A => ?_⟩
    obtain ⟨pending, attachments, anchors, symbols, hd⟩ := A.design
    obtain ⟨names, N, hx⟩ := hr A.names
    refine ⟨names, s.unhandled, N, (EStateM.bind_of_ok rfl).trans ?_⟩
    rw [Attempt.within, hd, A.hierarchy, TargetPath.resolve_annotated, hx]
    cases r <;> rfl

theorem locate (n : Note) : Asks d h (Lowering.locate n) := by
  unfold Lowering.locate
  split
  · exact locatePath _
  · exact fail _

theorem scope (scope : Scope) (n : Note) : Asks d h (scope.locate n) := by
  cases scope with
  | named => exact locate n
  | circuit => exact pure _
  | namedOrCircuit =>
    change Asks d h (locateIfGiven n)
    unfold locateIfGiven
    split
    · exact locate n
    · exact pure _

theorem requireLocal (t : Target) (n : Note) : Asks d h (Lowering.requireLocal t n) := by
  unfold Lowering.requireLocal
  split
  · exact pure _
  · exact fail _

theorem judgeAttach (allowNonLocal : Bool) (t : Target) (n : Note) :
    Asks d h (Action.judgeAttach allowNonLocal t n) := by
  unfold Action.judgeAttach
  split
  · exact pure _
  · exact bind (requireLocal t n) fun _ => pure _

theorem pinEnd (t : Target) (n : Note) : Asks d h (Lowering.pinEnd t n) := by
  refine bind (requireLocal t n) fun _ => ?_
  split
  · exact fail _
  · extract_lets go
    have hgo : ∀ u, Asks d h (go u) := fun _ => by
      refine bind (ask fun _ _ _ _ => rfl) fun v => ?_
      split
      · exact fail _
      · exact pure _
    split
    · exact bind (fail _) hgo
    · exact hgo ()

theorem judge (a : Action) (t : Target) (n : Note) : Asks d h (a.judge t n) := by
  cases a with
  | attach allowed => exact judgeAttach allowed t n
  | attachTo allowed ports kinds =>
    refine bind (ask fun _ _ _ _ => rfl) fun kind => ?_
    dsimp only
    generalize (match kind with
      | .port => ports
      | k => kinds.contains k) = fits
    cases fits
    · exact fail _
    · exact judgeAttach allowed t n
  | drop => exact pure _
  | source =>
    refine bind (pinEnd t n) fun (pin, v) => bind pins fun ps => ?_
    dsimp only
    split
    · exact bind (fail _) fun _ => pure _
    · exact pure _
  | sink => exact bind (pinEnd t n) fun _ => pure _

theorem classOf (options : LowerOptions) (n : Note) : Asks d h (Lowering.classOf options n) := by
  unfold Lowering.classOf
  split
  · exact pure _
  · split
    · exact pure _
    · exact fail _

theorem ruleOf (options : LowerOptions) (className : String) :
    Asks d h (Lowering.ruleOf options className) := by
  have counted : Asks d h
      (modify fun s => { s with unhandled := s.unhandled + 1 } : Lowering Unit) :=
    ⟨fun _ => .ok (), fun _ => nofun, fun A => ⟨_, _, A.names, rfl⟩⟩
  unfold Lowering.ruleOf
  split
  · exact pure _
  · refine bind counted fun _ => ?_
    extract_lets go
    have hgo : ∀ u, Asks d h (go u) := fun _ => by
      simp -zeta only [go]
      split
      · exact pure _
      · exact fail _
    split
    · exact bind (fail _) hgo
    · exact hgo ()

theorem judgeNote (options : LowerOptions) (n : Note) : Asks d h (Lowering.judgeNote options n) :=
  .bind (.classOf options n) fun c => .bind (.ruleOf options c) fun r =>
    .bind (.scope r.scope n) fun t => .judge r.action t n

end Asks

end Lowering

/-! ### Settling a note -/

/-- A note keeps the way to a target that it names and that was reached through instances. -/
def Note.needsAnchor (n : Note) (t : Target) : Bool :=
  !t.isLocal && n.fields.contains Note.targetField

namespace Design

variable (d : Design)

/-- The route down to a leaf module, as an anchor writes it. -/
def writeRoute (route : List OpId) (leaf : ModuleId) :
    Except DesignError (List PathStep × String) := do
  return (← route.mapM (AnchorPool.step d), ← d.moduleName leaf)

/-- The route of a target down to its module, as an anchor writes it. -/
def describe (t : Target) : Except DesignError (List PathStep × String) := do
  d.writeRoute t.route (← d.entityModule t.entity)

/-- What an anchor is needed for can be written down. -/
def checkVerdict (n : Note) : Verdict → Except DesignError Unit
  | .attach t => if n.needsAnchor t then do let _ ← d.describe t else .ok ()
  | _ => .ok ()

end Design

namespace Lowering

variable {d : Design} {h : Hierarchy}

/-- Judge a note, and make sure that the verdict can be entered. -/
def settleNote (options : LowerOptions) (n : Note) : Lowering Verdict := do
  let v ← judgeNote options n
  ask (·.checkVerdict n v)
  return v

theorem Asks.checkVerdict (n : Note) (v : Verdict) :
    Asks d h (Lowering.ask (·.checkVerdict n v)) :=
  .ask fun _ _ _ _ => by cases v <;> rfl

theorem settleNote_asks (d : Design) (h : Hierarchy) (options : LowerOptions) (n : Note) :
    Asks d h (settleNote options n) :=
  .bind (.judgeNote options n) fun v => .bind (.checkVerdict n v) fun _ => .pure v

end Lowering

open Lowering

/-- How a note is settled when some pins are known: as at the start of a lowering. -/
def Design.verdict (d : Design) (h : Hierarchy) (options : LowerOptions) (pins : Pins) (n : Note) :
    Except Halt Verdict :=
  (settleNote options n).answer { LowerState.start d h with pins }

/-- At any point of a lowering a note is settled as at the start with the same pins. -/
theorem Lowering.Aligned.settle {d : Design} {h : Hierarchy} {s : LowerState} (A : Aligned d h s)
    (options : LowerOptions) (n : Note) : ∃ names unhandled, names.Right d ∧
      settleNote options n s =
        (d.verdict h options s.pins n).leaving { s with names, unhandled } := by
  obtain ⟨r, -, hr⟩ := settleNote_asks d h options n
  obtain ⟨names, unhandled, N, hx⟩ := hr A
  obtain ⟨_, _, -, h₀⟩ := hr (s := { LowerState.start d h with pins := s.pins })
    ⟨⟨_, _, _, _, rfl⟩, rfl, .empty d⟩
  have hv : d.verdict h options s.pins n = r s.pins := EStateM.answer_of_leaving h₀
  exact ⟨names, unhandled, N, hv ▸ hx⟩

/-- Only a type with too many parts keeps a note from being settled. -/
theorem Design.verdict_excused (d : Design) (h : Hierarchy) (options : LowerOptions) (pins : Pins)
    (n : Note) : d.Excuses (d.verdict h options pins n) := by
  obtain ⟨r, hexc, hr⟩ := settleNote_asks d h options n
  obtain ⟨_, _, -, h₀⟩ := hr (s := { LowerState.start d h with pins })
    ⟨⟨_, _, _, _, rfl⟩, rfl, .empty d⟩
  have hv : d.verdict h options pins n = r pins := EStateM.answer_of_leaving h₀
  exact hv ▸ hexc pins

end AnnotatedCircuit
