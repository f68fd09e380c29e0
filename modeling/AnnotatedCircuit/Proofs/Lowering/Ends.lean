import AnnotatedCircuit.Proofs.Lowering.Refusals

/-!
# Notes that name ends of pins

A note names an end of a pin if its rule is for ends and its target, reached without instances, is a
value as a whole (`Design.pinEnd?`). This depends on the design and the note alone. At any point of
a lowering a sink is accepted (`lowerNote_sink`) and so is a source whose pin has none yet
(`lowerNote_source`); a further source is refused (`lowerNote_secondSource`), and a note that names
no end leaves the pins as they are (`pins_lowerNote`).
-/

namespace AnnotatedCircuit

open Lowering

/-- A value that is the source or a sink of a pin. -/
structure PinEnd where
  pin : String
  role : Wiring.Role
  value : ValueId
deriving DecidableEq, Repr

/-- The end that is entered with a note. -/
def Verdict.end? : Verdict → Option PinEnd
  | source pin v => some ⟨pin, .source, v⟩
  | sink pin v => some ⟨pin, .sink, v⟩
  | _ => none

/-- What an action makes of the target of a note, if that becomes an end. -/
def Lowering.Action.role? : Action → Option Wiring.Role
  | source => some .source
  | sink => some .sink
  | _ => none

namespace Design

variable {d : Design} {h : Hierarchy} {options : LowerOptions} {n : Note} {e : PinEnd} {v : Verdict}
  {r : Rule} {t : Target} {pin : String} {w : ValueId}

/-- The end that a note names: its rule is for ends, it has a pin, and its target is reached without
instances and is, as a whole, a value. -/
def pinEnd? (d : Design) (h : Hierarchy) (options : LowerOptions) (n : Note) : Option PinEnd := do
  let r ← rule? options n
  let role ← r.action.role?
  let t ← d.target? h n r.scope
  let pin ← n.str? pinField
  let value ← (d.entityValue t.entity).toOption.join
  if t.isLocal ∧ t.fieldId = 0 then some ⟨pin, role, value⟩ else none

theorem pinEnd?_eq_some_iff : d.pinEnd? h options n = some e ↔
    ∃ r t, rule? options n = some r ∧ r.action.role? = some e.role ∧
      d.target? h n r.scope = some t ∧ n.str? pinField = some e.pin ∧
      d.entityValue t.entity = .ok (some e.value) ∧ t.isLocal = true ∧ t.fieldId = 0 := by
  have valued : ∀ (x : Except DesignError (Option ValueId)) w,
      x.toOption.join = some w ↔ x = .ok (some w) := by
    rintro (_ | _ | _) w <;> simp [Except.toOption]
  simp only [pinEnd?, bind, Option.bind_eq_some_iff, valued, Option.ite_none_right_eq_some]
  constructor
  · rintro ⟨r, hr, role, hrole, t, ht, pin, hpin, w, hw, ⟨isLocal, whole⟩, he⟩
    cases he
    exact ⟨r, t, hr, hrole, ht, hpin, hw, isLocal, whole⟩
  · rintro ⟨r, t, hr, hrole, ht, hpin, hw, isLocal, whole⟩
    exact ⟨r, hr, _, hrole, t, ht, _, hpin, _, hw, ⟨isLocal, whole⟩, rfl⟩

end Design

namespace Lowering

variable {α : Type} {d : Design} {h : Hierarchy} {options : LowerOptions} {s s' : LowerState}
  {n : Note} {r : Rule} {t : Target} {e : PinEnd} {v : Verdict} {pin : String} {w : ValueId}

/-! ### Judging by a rule that is known -/

/-- Where a step that only asks succeeds, the state is as before but for what nothing looks at. -/
theorem Asks.state_of_ok {x : Lowering α} {a : α} (asks : Asks d h x) (A : Aligned d h s)
    (hx : x s = .ok a s') :
    ∃ names unhandled, names.Right d ∧ s' = { s with names, unhandled } := by
  obtain ⟨r, -, hr⟩ := asks
  obtain ⟨names, unhandled, N, hs⟩ := hr A
  rw [hx] at hs
  cases hp : r s.pins with
  | ok a' =>
    rw [hp] at hs
    cases hs
    exact ⟨names, unhandled, N, rfl⟩
  | error e =>
    rw [hp] at hs
    cases hs

theorem classOf_apply {c : String} (hc : class? options n = some c) :
    classOf options n s = .ok c s := by
  rw [class?] at hc
  unfold classOf
  cases hn : n.class? with
  | some c' =>
    rw [hn] at hc
    cases hc
    rfl
  | none =>
    rw [hn, Option.none_or, Option.ite_none_right_eq_some] at hc
    obtain ⟨tolerated, hc⟩ := hc
    cases hc
    simp only [tolerated]
    rfl

theorem ruleOf_answers {c : String} (hr : (rules.find? c).or
    (if options.ignoreUnhandled then rules.find? options.fallbackClass else none) = some r) :
    ∃ s', ruleOf options c s = .ok r s' := by
  unfold ruleOf
  cases hc : rules.find? c with
  | some r' =>
    rw [hc] at hr
    cases hr
    exact ⟨s, rfl⟩
  | none =>
    rw [hc, Option.none_or, Option.ite_none_right_eq_some] at hr
    obtain ⟨tolerated, hr⟩ := hr
    refine ⟨{ s with unhandled := s.unhandled + 1 }, ?_⟩
    simp only [tolerated, hr]
    rfl

theorem locatePath_answers {path : String} (A : Aligned d h s) (ht : d.locate? h path = some t) :
    ∃ s', locatePath path s = .ok t s' := by
  obtain ⟨p, hp, R⟩ := Design.locate?_eq_some_iff.mp ht
  obtain ⟨tables, hres⟩ :=
    ((TargetPath.resolve_answers (TargetPath.canonical path) p).answer A.names t).mpr R
  obtain ⟨_, _, _, _, hd⟩ := A.design
  refine ⟨{ s with names := tables }, ?_⟩
  unfold locatePath
  simp only [hp]
  refine (EStateM.bind_of_ok rfl).trans ?_
  rw [Attempt.within, hd, A.hierarchy, TargetPath.resolve_annotated, hres]

theorem locate_answers (A : Aligned d h s) (ht : d.named? h n = some t) :
    ∃ s', locate n s = .ok t s' := by
  obtain ⟨path, hpath, ht⟩ := Option.bind_eq_some_iff.mp ht
  unfold locate
  simp only [hpath]
  exact locatePath_answers A ht

theorem scope_answers (A : Aligned d h s) {scope : Scope} (ht : d.target? h n scope = some t) :
    ∃ s', scope.locate n s = .ok t s' := by
  cases scope with
  | named => exact locate_answers A ht
  | circuit =>
    cases ht
    exact ⟨s, rfl⟩
  | namedOrCircuit =>
    change (if n.fields.contains Note.targetField then d.named? h n else some .circuit) = some t
      at ht
    change ∃ s', locateIfGiven n s = .ok t s'
    unfold locateIfGiven
    split at ht
    · rename_i given
      rw [if_pos given]
      exact locate_answers A ht
    · rename_i missing
      rw [if_neg missing]
      cases ht
      exact ⟨s, rfl⟩

/-- The class, the rule and the target of a note are found without a change that counts; then its
action judges. -/
theorem judgeNote_of_rule (A : Aligned d h s) (hr : rule? options n = some r)
    (ht : d.target? h n r.scope = some t) : ∃ names unhandled, names.Right d ∧
      judgeNote options n s = r.action.judge t n { s with names, unhandled } := by
  obtain ⟨c, hc, hr⟩ := Option.bind_eq_some_iff.mp hr
  obtain ⟨s₁, h₁⟩ := ruleOf_answers (s := s) hr
  obtain ⟨names, unhandled, N, rfl⟩ := (Asks.ruleOf options c).state_of_ok A h₁
  have A₁ : Aligned d h { s with names, unhandled } := ⟨A.design, A.hierarchy, N⟩
  obtain ⟨s₂, h₂⟩ := scope_answers A₁ ht
  obtain ⟨names', unhandled', N', rfl⟩ := (Asks.scope r.scope n).state_of_ok A₁ h₂
  refine ⟨names', unhandled', N', (EStateM.bind_of_ok (classOf_apply hc)).trans ?_⟩
  exact (EStateM.bind_of_ok h₁).trans (EStateM.bind_of_ok h₂)

/-! ### Judging ends -/

theorem pinEnd_apply (A : Aligned d h s) (hpin : n.str? pinField = some pin)
    (hw : d.entityValue t.entity = .ok (some w)) (isLocal : t.isLocal = true)
    (whole : t.fieldId = 0) : pinEnd t n s = .ok (pin, w) s := by
  have hw : s.design.entityValue t.entity = .ok (some w) := by
    obtain ⟨_, _, _, _, hd⟩ := A.design
    rw [hd]
    exact hw
  have asked : ask (·.entityValue t.entity) s = .ok (some w) s := by
    rw [ask_apply, hw]
    rfl
  have reached : requireLocal t n s = .ok () s := by
    rw [requireLocal, if_pos isLocal]
    rfl
  refine (EStateM.bind_of_ok reached).trans ?_
  simp only [hpin]
  rw [if_neg (not_not_intro whole)]
  exact EStateM.bind_of_ok asked

theorem judge_sink (hend : pinEnd t n s = .ok (pin, w) s) :
    Action.sink.judge t n s = .ok (.sink pin w) s :=
  EStateM.bind_of_ok hend

/-- A source is judged by whether its pin has one already. -/
theorem judge_source (hend : pinEnd t n s = .ok (pin, w) s) : Action.source.judge t n s =
    if ((s.pins.find? pin).bind Pin.source).isSome then
      .error (.failure (.rejected n.className (.secondSource pin))) s
    else .ok (.source pin w) s := by
  refine (EStateM.bind_of_ok hend).trans ((EStateM.bind_of_ok rfl).trans ?_)
  split <;> rfl

/-- A note is entered as an end only by an action that is for such ends. -/
theorem Tells.judge_role (a : Action) (t : Target) (n : Note) :
    Tells d h (a.judge t n) fun v => ∀ e, v.end? = some e → a.role? = some e.role := by
  have attached : ∀ allowed, Tells d h (Action.judgeAttach allowed t n) fun v =>
      ∀ e, v.end? = some e → a.role? = some e.role := by
    intro allowed
    unfold Action.judgeAttach
    split
    · exact pure nofun
    · exact bind (.requireLocal t n) (trivial _) fun _ _ => pure nofun
  cases a with
  | attach allowed => exact attached allowed
  | attachTo allowed ports kinds =>
    have either : ∀ (kind : EntityKind) (fits : Bool), Tells d h
        (if fits then Action.judgeAttach allowed t n else reject n (.unfit kind))
        fun v => ∀ e, v.end? = some e → none = some e.role := by
      intro kind fits
      cases fits
      · exact fail _
      · exact attached allowed
    exact bind (.ask fun _ _ _ _ => rfl) (trivial _) fun kind _ => either kind _
  | drop => exact pure nofun
  | source =>
    refine bind (.pinEnd t n) (trivial _) fun (pin, w) _ => bind .pins (trivial _) fun ps _ => ?_
    dsimp only
    split
    · exact bind (.fail _) (fail (P := fun _ => False) _) fun _ h => h.elim
    · refine pure fun e he => ?_
      cases he
      rfl
  | sink =>
    refine bind (.pinEnd t n) (trivial _) fun (pin, w) _ => pure fun e he => ?_
    cases he
    rfl

end Lowering

/-- Only a note that names an end is entered as an end. -/
theorem Design.pinEnd?_of_verdict {d : Design} {h : Hierarchy} {options : LowerOptions}
    {pins : Pins} {n : Note} {v : Verdict} {e : PinEnd} (hv : d.verdict h options pins n = .ok v)
    (he : v.end? = some e) : d.pinEnd? h options n = some e := by
  obtain ⟨r, t, hr, ht, fits⟩ := fits_of_verdict hv
  have A : Aligned d h { LowerState.start d h with pins } := ⟨⟨_, _, _, _, rfl⟩, rfl, .empty d⟩
  obtain ⟨_, settled⟩ := EStateM.answer_eq_ok_iff.mp hv
  obtain ⟨v', _, judged, checked⟩ := EStateM.bind_eq_ok_iff.mp settled
  obtain ⟨_, _, -, hv'⟩ := EStateM.bind_eq_ok_iff.mp checked
  cases hv'
  obtain ⟨names, unhandled, N, judgement⟩ := judgeNote_of_rule A hr ht
  have A' : Aligned d h { LowerState.start d h with pins, names, unhandled } :=
    ⟨A.design, A.hierarchy, N⟩
  have role := (Tells.judge_role r.action t n).told A' (judgement.symm.trans judged) e he
  rw [pinEnd?_eq_some_iff]
  cases v with
  | source pin w | sink pin w =>
    cases he
    obtain ⟨isLocal, whole, hpin, hw⟩ := fits
    exact ⟨r, t, hr, role, ht, hpin, hw, isLocal, whole⟩
  | attach | drop => cases he

namespace Lowering

variable {d : Design} {h : Hierarchy} {options : LowerOptions} {s t : LowerState} {n : Note}
  {e : PinEnd} {pin : String} {w : ValueId}

/-! ### Lowering ends -/

theorem Action.eq_source {a : Action} (ha : a.role? = some .source) : a = .source := by
  cases a <;> cases ha
  rfl

theorem Action.eq_sink {a : Action} (ha : a.role? = some .sink) : a = .sink := by
  cases a <;> cases ha
  rfl

/-- A note that names an end is judged by the action for it. -/
theorem exists_judgement (A : Aligned d h s) (hend : d.pinEnd? h options n = some e) :
    ∃ (a : Action) (t : Target) (names : NameTables) (unhandled : Nat), a.role? = some e.role ∧
      judgeNote options n s = a.judge t n { s with names, unhandled } ∧
      pinEnd t n { s with names, unhandled } = .ok (e.pin, e.value) { s with names, unhandled } := by
  obtain ⟨r, t, hr, hrole, ht, hpin, hw, isLocal, whole⟩ := Design.pinEnd?_eq_some_iff.mp hend
  obtain ⟨names, unhandled, N, hjudge⟩ := judgeNote_of_rule A hr ht
  have A' : Aligned d h { s with names, unhandled } := ⟨A.design, A.hierarchy, N⟩
  exact ⟨r.action, t, names, unhandled, hrole, hjudge, pinEnd_apply A' hpin hw isLocal whole⟩

/-- A sink is accepted. -/
theorem lowerNote_sink (A : Aligned d h s) (hend : d.pinEnd? h options n = some ⟨pin, .sink, w⟩) :
    ∃ names unhandled, lowerNote options .builtin n s =
      .ok () { s with names, unhandled, pins := (Verdict.sink pin w).record s.pins } := by
  obtain ⟨a, t, names, unhandled, role, hjudge, ends⟩ := exists_judgement A hend
  obtain rfl := Action.eq_sink role
  refine ⟨names, unhandled, ?_⟩
  rw [lowerNote_eq]
  exact EStateM.bind_of_ok (hjudge.trans (judge_sink ends))

/-- The first source of a pin is accepted. -/
theorem lowerNote_source (A : Aligned d h s)
    (hend : d.pinEnd? h options n = some ⟨pin, .source, w⟩)
    (new : (s.pins.find? pin).bind Pin.source = none) :
    ∃ names unhandled, lowerNote options .builtin n s =
      .ok () { s with names, unhandled, pins := (Verdict.source pin w).record s.pins } := by
  obtain ⟨a, t, names, unhandled, role, hjudge, ends⟩ := exists_judgement A hend
  obtain rfl := Action.eq_source role
  refine ⟨names, unhandled, ?_⟩
  rw [judge_source ends, if_neg (by rw [new]; exact Bool.false_ne_true)] at hjudge
  rw [lowerNote_eq]
  exact EStateM.bind_of_ok hjudge

/-- A further source of a pin is refused. -/
theorem lowerNote_secondSource (A : Aligned d h s)
    (hend : d.pinEnd? h options n = some ⟨pin, .source, w⟩)
    (known : ((s.pins.find? pin).bind Pin.source).isSome) :
    ∃ names unhandled, lowerNote options .builtin n s =
      .error (.failure (.rejected n.className (.secondSource pin))) { s with names, unhandled } := by
  obtain ⟨a, t, names, unhandled, role, hjudge, ends⟩ := exists_judgement A hend
  obtain rfl := Action.eq_source role
  refine ⟨names, unhandled, ?_⟩
  rw [judge_source ends, if_pos known] at hjudge
  rw [lowerNote_eq]
  exact EStateM.bind_of_error hjudge

/-- What is accepted without an end leaves the pins as they are. -/
theorem pins_lowerNote (S : Steady d h s) (hend : d.pinEnd? h options n = none)
    (hn : lowerNote options .builtin n s = .ok () t) : t.pins = s.pins := by
  have L := lowerNote_lowers S.aligned S.pooled options n
  rw [hn] at L
  generalize hv : d.verdict h options s.pins n = r at L
  cases L with
  | @entered v _ _ _ right E =>
    refine E.pins.trans ?_
    cases v with
    | source pin w | sink pin w =>
      rw [Design.pinEnd?_of_verdict hv rfl] at hend
      cases hend
    | attach | drop => rfl

end Lowering

end AnnotatedCircuit
