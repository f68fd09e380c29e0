import AnnotatedCircuit.Proofs.Hierarchy.Acyclic
import AnnotatedCircuit.Proofs.Lowering.Ending
import AnnotatedCircuit.Proofs.Wiring.Frame

/-!
# The account of a lowering

Each note of a design has one outcome: it is attached to the target that its rule finds, it becomes
an end of a pin there, it is dropped, or it is refused and reported. All outcomes together, in the
order of the notes, are what the state consists of when the wiring begins, and what the report says
(`Design.lower_accounts`).
-/

namespace AnnotatedCircuit

open Lowering

namespace Lowering

variable {α β : Type} {d : Design} {h : Hierarchy} {options : LowerOptions} {n : Note}

/-! ### What a note is accepted for -/

/-- The class under which a note is handled, if there is one. -/
def class? (options : LowerOptions) (n : Note) : Option String :=
  n.class?.or (if options.ignoreClassless then some options.fallbackClass else none)

/-- The rule that a note falls under. -/
def rule? (options : LowerOptions) (n : Note) : Option Rule := do
  let c ← class? options n
  (rules.find? c).or (if options.ignoreUnhandled then rules.find? options.fallbackClass else none)

end Lowering

/-- What the target field of a note names. -/
def Design.named? (d : Design) (h : Hierarchy) (n : Note) : Option Target := do
  d.locate? h (← n.str? Note.targetField)

/-- The target that a handler takes for a note. -/
def Design.target? (d : Design) (h : Hierarchy) (n : Note) : Scope → Option Target
  | .named => d.named? h n
  | .circuit => some .circuit
  | .namedOrCircuit =>
    if n.fields.contains Note.targetField then d.named? h n else some .circuit

/-- A verdict is about the target of the note: what it enters is there. -/
def Verdict.Fits (d : Design) (n : Note) (t : Target) : Verdict → Prop
  | attach t' => t' = t
  | source pin v | sink pin v => t.isLocal = true ∧ t.fieldId = 0 ∧ n.str? pinField = some pin ∧
      d.entityValue t.entity = .ok (some v)
  | drop => True

namespace Lowering

/-- In a lowering of the design, every answer is as `P` says. -/
structure Tells (d : Design) (h : Hierarchy) (x : Lowering α) (P : α → Prop) : Prop where
  told : ∀ {s}, Aligned d h s → ∀ {a s'}, x s = .ok a s' → P a

namespace Tells

variable {α β : Type} {d : Design} {h : Hierarchy} {options : LowerOptions} {n : Note}
  {x : Lowering α} {f : α → Lowering β} {P : α → Prop} {Q : β → Prop}

theorem pure {a : α} (ha : P a) : Tells d h (Pure.pure a) P :=
  ⟨fun _ _ _ h => (EStateM.Result.ok.inj h).1 ▸ ha⟩

theorem fail (e : LowerError) : Tells d h (.fail e : Lowering α) P := ⟨fun _ _ _ h => nomatch h⟩

theorem bind (asks : Asks d h x) (told : Tells d h x P) (hf : ∀ a, P a → Tells d h (f a) Q) :
    Tells d h (x >>= f) Q := by
  refine ⟨fun {s} A b s'' hb => ?_⟩
  obtain ⟨a, s', ha, hb⟩ := EStateM.bind_eq_ok_iff.mp hb
  refine (hf a (told.told A ha)).told ?_ hb
  obtain ⟨r, -, hr⟩ := asks
  obtain ⟨names, unhandled, N, hx⟩ := hr A
  rw [ha] at hx
  cases hp : r s.pins with
  | ok a' =>
    rw [hp] at hx
    cases hx
    exact ⟨A.design, A.hierarchy, N⟩
  | error e =>
    rw [hp] at hx
    cases hx

theorem trivial (x : Lowering α) : Tells d h x fun _ => True := ⟨fun _ _ _ _ => True.intro⟩

theorem ask {question : Design → Except DesignError α}
    (same : ∀ pending attachments anchors symbols,
      question { d with pending, attachments, anchors, symbols } = question d) :
    Tells d h (Lowering.ask question) (question d = .ok ·) := by
  refine ⟨fun {s} A a s' ha => ?_⟩
  obtain ⟨_, _, _, _, hd⟩ := A.design
  rw [ask_apply, hd, same] at ha
  cases hq : question d with
  | ok a' =>
    rw [hq] at ha
    cases ha
    rfl
  | error e =>
    rw [hq] at ha
    cases ha

theorem classOf (options : LowerOptions) (n : Note) :
    Tells d h (Lowering.classOf options n) (class? options n = some ·) := by
  unfold Lowering.classOf
  rw [class?]
  cases n.class? with
  | some c => exact pure rfl
  | none =>
    dsimp only
    split
    · exact pure rfl
    · exact fail _

theorem ruleOf (options : LowerOptions) (className : String) :
    Tells d h (Lowering.ruleOf options className) fun r => (rules.find? className).or
      (if options.ignoreUnhandled then rules.find? options.fallbackClass else none) = some r := by
  unfold Lowering.ruleOf
  cases rules.find? className with
  | some r => exact pure rfl
  | none =>
    refine ⟨fun {s} A r s' hr => ?_⟩
    cases hu : options.ignoreUnhandled with
    | false =>
      rw [hu] at hr
      cases hr
    | true =>
      rw [hu] at hr
      cases hf : rules.find? options.fallbackClass with
      | some r' =>
        rw [hf] at hr
        cases hr
        rfl
      | none =>
        rw [hf] at hr
        cases hr

theorem locatePath (path : String) :
    Tells d h (Lowering.locatePath path) (d.locate? h path = some ·) := by
  refine ⟨fun {s} A t s' ht => ?_⟩
  unfold Lowering.locatePath at ht
  cases hp : TargetPath.parse? (TargetPath.canonical path) with
  | none =>
    rw [hp] at ht
    cases ht
  | some p =>
    rw [hp] at ht
    obtain ⟨_, _, hget, ht⟩ := EStateM.bind_eq_ok_iff.mp ht
    cases hget
    obtain ⟨_, _, _, _, hd⟩ := A.design
    rw [Attempt.within, hd, A.hierarchy, TargetPath.resolve_annotated] at ht
    refine Design.locate?_eq_some_iff.mpr ⟨p, hp, ?_⟩
    refine ((TargetPath.resolve_answers (TargetPath.canonical path) p).answer A.names t).mp ?_
    split at ht
    · rename_i hres
      cases ht
      exact ⟨_, hres⟩
    · cases ht

theorem locate (n : Note) : Tells d h (Lowering.locate n) (d.named? h n = some ·) := by
  unfold Lowering.locate
  rw [Design.named?]
  cases n.str? Note.targetField with
  | some path => exact locatePath path
  | none => exact fail _

theorem scope (scope : Scope) (n : Note) :
    Tells d h (scope.locate n) (d.target? h n scope = some ·) := by
  cases scope with
  | named => exact locate n
  | circuit => exact pure rfl
  | namedOrCircuit =>
    change Tells d h (locateIfGiven n) fun t => (if n.fields.contains Note.targetField then
      d.named? h n else some .circuit) = some t
    unfold locateIfGiven
    split
    · exact locate n
    · exact pure rfl

theorem requireLocal (t : Target) (n : Note) :
    Tells d h (Lowering.requireLocal t n) fun _ => t.isLocal = true := by
  unfold Lowering.requireLocal
  split
  · exact pure ‹_›
  · exact fail _

theorem judgeAttach (allowNonLocal : Bool) (t : Target) (n : Note) :
    Tells d h (Action.judgeAttach allowNonLocal t n) (Verdict.Fits d n t) := by
  unfold Action.judgeAttach
  split
  · exact pure rfl
  · exact bind (.requireLocal t n) (trivial _) fun _ _ => pure rfl

theorem pinEnd (t : Target) (n : Note) : Tells d h (Lowering.pinEnd t n) fun e =>
    t.isLocal = true ∧ t.fieldId = 0 ∧ n.str? pinField = some e.1 ∧
      d.entityValue t.entity = .ok (some e.2) := by
  refine bind (.requireLocal t n) (requireLocal t n) fun _ isLocal => ?_
  cases hpin : n.str? pinField with
  | none => exact fail _
  | some pin =>
    dsimp only
    by_cases whole : t.fieldId = 0
    · rw [if_neg (not_not_intro whole)]
      refine bind (.ask fun _ _ _ _ => rfl) (ask fun _ _ _ _ => rfl) fun v hv => ?_
      cases v with
      | none => exact fail _
      | some v => exact pure ⟨isLocal, whole, rfl, hv⟩
    · rw [if_pos whole]
      exact bind (.fail _) (fail _) fun _ h => h

theorem judge (a : Action) (t : Target) (n : Note) : Tells d h (a.judge t n) (Verdict.Fits d n t) := by
  cases a with
  | attach allowed => exact judgeAttach allowed t n
  | attachTo allowed ports kinds =>
    have either : ∀ (kind : EntityKind) (fits : Bool), Tells d h
        (if fits then Action.judgeAttach allowed t n else reject n (.unfit kind))
        (Verdict.Fits d n t) := by
      intro kind fits
      cases fits
      · exact fail _
      · exact judgeAttach allowed t n
    exact bind (.ask fun _ _ _ _ => rfl) (trivial _) fun kind _ => either kind _
  | drop => exact pure True.intro
  | source =>
    refine bind (.pinEnd t n) (pinEnd t n) fun (pin, v) hend =>
      bind .pins (trivial _) fun ps _ => ?_
    dsimp only
    split
    · exact bind (.fail _) (fail _) fun _ h => h
    · exact pure hend
  | sink => exact bind (.pinEnd t n) (pinEnd t n) fun _ hend => pure hend

theorem judgeNote (options : LowerOptions) (n : Note) :
    Tells d h (Lowering.judgeNote options n) fun v => ∃ r t, rule? options n = some r ∧
      d.target? h n r.scope = some t ∧ v.Fits d n t := by
  refine bind (.classOf options n) (classOf options n) fun c hc => ?_
  refine bind (.ruleOf options c) (ruleOf options c) fun r hr => ?_
  refine bind (.scope r.scope n) (scope r.scope n) fun t ht => ?_
  have hrule : rule? options n = some r := by
    rw [rule?, hc]
    exact hr
  exact ⟨fun A _ _ hv => ⟨r, t, hrule, ht, (judge r.action t n).told A hv⟩⟩

end Tells

end Lowering

/-! ### Each note has one outcome -/

/-- A note is accepted for the target that its rule finds, or it is refused and reported. -/
def Settlement.Grounded (d : Design) (h : Hierarchy) (options : LowerOptions) (c : Settlement) :
    Prop :=
  match c.result with
  | .ok v => ∃ r t, rule? options c.note = some r ∧ d.target? h c.note r.scope = some t ∧
      v.Fits d c.note t
  | .error (.failure _) => True
  | .error (.overflow _) => False

namespace Design

variable {d : Design} {h : Hierarchy} {options : LowerOptions} {n : Note} {v : Verdict}

/-- A note is accepted for the target that its rule finds. -/
theorem fits_of_verdict {pins : Pins} (hv : d.verdict h options pins n = .ok v) :
    ∃ r t, rule? options n = some r ∧ d.target? h n r.scope = some t ∧ v.Fits d n t := by
  obtain ⟨_, hv⟩ := EStateM.answer_eq_ok_iff.mp hv
  obtain ⟨v', _, hv', hcheck⟩ := EStateM.bind_eq_ok_iff.mp hv
  obtain ⟨_, _, -, hv⟩ := EStateM.bind_eq_ok_iff.mp hcheck
  cases hv
  exact (Tells.judgeNote options n).told ⟨⟨_, _, _, _, rfl⟩, rfl, .empty d⟩ hv'

theorem settlement_eq_verdict {pins : Pins} {notes : List Note} {c : Settlement}
    (hc : c ∈ d.settlements h options pins notes) :
    ∃ pins', c.result = d.verdict h options pins' c.note := by
  induction notes generalizing pins with
  | nil => cases hc
  | cons n notes ih =>
    rcases List.mem_cons.mp hc with rfl | hc
    · exact ⟨pins, rfl⟩
    · exact ih hc

end Design

/-- The account of a lowering that ended with a report and a design. The notes were settled as `cs`
says, and then the wiring began in the state `s`. -/
structure Account (d : Design) (h : Hierarchy) (options : LowerOptions) (cs : List Settlement)
    (s : LowerState) (report : Report) (d' : Design) : Prop where
  drained : drain options .builtin d.pending.length d.pending (.start { d with pending := [] } h) =
    .ok (s, cs.filterMap Settlement.refusal?)
  wired : d.pending ≠ [] →
    finish d.pending.length s (cs.filterMap Settlement.refusal?) = .ok (report, d')
  /-- Each note is settled once, in its turn. -/
  notes : cs.map Settlement.note = d.pending
  grounded : ∀ c ∈ cs, c.Grounded d h options
  /-- Nothing but the notes, the anchors and their names has changed before the wiring. -/
  design : ∃ attachments anchors symbols,
    s.design = { d with pending := [], attachments, anchors, symbols }
  /-- An entity has its old notes, and then those that were accepted for it. -/
  attached : ∀ e, s.design.attachments.attached e =
    d.attachments.attached e ++ cs.filterMap (Settlement.formOn? s.anchorOf? e)
  pins : s.pins = cs.foldl Settlement.record .empty
  /-- What stands for the way to a target is the name of an anchor that describes the way. -/
  anchored : ∀ c ∈ cs, ∀ t, c.result = .ok (.attach t) → c.note.needsAnchor t = true →
    ∃ x ∈ s.design.anchors, s.anchorOf? c.note t = some x.name ∧ d.describe t = .ok (x.path, x.leaf)
  pending : d'.pending = []
  /-- The notes that were refused are reported, in their order, and no others. -/
  reported : ∃ later, report.diagnostics = cs.filterMap Settlement.refusal? ++ later ∧
    ∀ x ∈ later, x.note = none
  counted : report.statistics.raw = d.pending.length ∧ report.statistics.added = 0 ∧
    report.statistics.total = report.statistics.raw + report.statistics.added ∧
    report.statistics.failures = report.diagnostics.length

namespace Lowering

variable {d d' : Design} {h : Hierarchy} {s : LowerState} {n : Note} {t : Target} {raw : Nat}
  {ds : List Diagnostic} {report : Report}

/-- What is reported at the end comes after what was reported before, and concerns no note. -/
theorem finish_reports (hf : finish raw s ds = .ok (report, d')) :
    s.design.Framed d' ∧
    (∃ later, report.diagnostics = ds ++ later ∧ ∀ x ∈ later, x.note = none) ∧
    report.statistics.raw = raw ∧ report.statistics.added = s.added ∧
    report.statistics.total = raw + s.added ∧
    report.statistics.failures = report.diagnostics.length := by
  obtain ⟨⟨planning, errors⟩, -, hdone⟩ := Checked.bind_eq_ok_iff.mp hf
  cases hdone
  refine ⟨Wiring.realize_framed .., ⟨_, by simp only [List.append_assoc]; rfl, ?_⟩, rfl, rfl, rfl,
    rfl⟩
  intro x hx
  rcases List.mem_append.mp hx with hx | hx
  · obtain ⟨e, -, hfault⟩ := List.mem_filterMap.mp hx
    rw [faultOfPin?] at hfault
    split at hfault
    · cases hfault
      rfl
    · cases hfault
  · rcases List.mem_append.mp hx with hx | hx <;>
    · obtain ⟨e, -, rfl⟩ := List.mem_map.mp hx
      rfl

/-- The name that stands for the way to a target is that of the anchor that the pool has for it. -/
theorem pooled_of_anchorOf? (A : Aligned d h s) (P : Pooled d s) (hneeds : n.needsAnchor t = true)
    (named : (s.anchorOf? n t).isSome) : ∃ leaf a x, d.entityModule t.entity = .ok leaf ∧
      s.pool.anchors.find? (t.route, leaf) = some a ∧ s.design.anchor? a = some x ∧
      d.writeRoute t.route leaf = .ok (x.path, x.leaf) ∧ s.anchorOf? n t = some x.name := by
  rw [LowerState.anchorOf?, if_pos hneeds, A.entityModule] at named ⊢
  cases hleaf : d.entityModule t.entity with
  | error e =>
    rw [hleaf] at named
    cases named
  | ok leaf =>
    rw [hleaf] at named
    obtain ⟨name, hname⟩ := Option.isSome_iff_exists.mp named
    obtain ⟨a, ha, hname'⟩ := Option.bind_eq_some_iff.mp hname
    obtain ⟨x, hx, hwritten⟩ := P.1 ha
    rw [hx] at hname'
    cases hname'
    exact ⟨leaf, a, x, rfl, ha, hx, hwritten, hname⟩

theorem anchor_of_anchorOf? (A : Aligned d h s) (P : Pooled d s) (hneeds : n.needsAnchor t = true)
    (named : (s.anchorOf? n t).isSome) : ∃ x ∈ s.design.anchors,
      s.anchorOf? n t = some x.name ∧ d.describe t = .ok (x.path, x.leaf) := by
  obtain ⟨leaf, a, x, hleaf, -, hx, hwritten, hname⟩ := pooled_of_anchorOf? A P hneeds named
  refine ⟨x, List.mem_of_getElem? hx, hname, ?_⟩
  rw [Design.describe, hleaf]
  exact hwritten

end Lowering

namespace Design

variable {d : Design} {h : Hierarchy} {options : LowerOptions}

theorem account_of_ofDesign (hh : Hierarchy.ofDesign d = .ok h) (options : LowerOptions) :
    (∃ report d' s, d.lower options = .ok (report, d') ∧
      Account d h options (d.settlements h options .empty d.pending) s report d') ∨
    ∃ o, d.lower options = .error (.overflow o) ∧ d.Strained := by
  by_cases idle : d.pending = []
  · refine .inl ⟨⟨{}, []⟩, { d with pending := [] }, .start { d with pending := [] } h, ?_, ?_⟩
    · rw [lower, lowerWithin, idle]
      rfl
    · rw [idle]
      exact {
        drained := by rw [idle]; rfl
        wired := fun some => absurd idle some
        notes := idle.symm
        grounded := fun _ hc => absurd hc List.not_mem_nil
        design := ⟨_, _, _, rfl⟩
        attached := fun _ => (List.append_nil _).symm
        pins := rfl
        anchored := fun _ hc => absurd hc List.not_mem_nil
        pending := rfl
        reported := ⟨[], rfl, fun _ hx => absurd hx List.not_mem_nil⟩
        counted := ⟨by rw [idle]; rfl, rfl, rfl, rfl⟩ }
  · refine (lower_cases hh idle options).imp_left ?_
    rintro ⟨s, report, d', hdrain, R, hfinish, hlower⟩
    obtain ⟨framed, reported, raw, added, total, failures⟩ := finish_reports hfinish
    have unspawned : s.added = 0 := by
      obtain ⟨_, _, _, _, _, _, _, rfl⟩ := R.frame
      rfl
    refine ⟨report, d', s, hlower, {
      drained := hdrain
      wired := fun _ => hfinish
      notes := map_note_settlements ..
      grounded := fun c hc => ?_
      design := ?_
      attached := R.attached
      pins := R.pins
      anchored := fun c hc t ht hneeds =>
        anchor_of_anchorOf? R.aligned R.pooled hneeds (R.anchored c hc t ht hneeds)
      pending := ?_
      reported
      counted := ⟨raw, added.trans unspawned, ?_, failures⟩ }⟩
    · obtain ⟨pins', hv⟩ := settlement_eq_verdict hc
      rw [Settlement.Grounded]
      split <;> rename_i hresult
      · exact fits_of_verdict (hv.symm.trans hresult)
      · exact True.intro
      · exact R.settled c hc _ hresult
    · obtain ⟨_, _, _, _, _, _, _, rfl⟩ := R.frame
      exact ⟨_, _, _, rfl⟩
    · rw [framed.pending]
      obtain ⟨_, _, _, _, _, _, _, rfl⟩ := R.frame
      rfl
    · rw [total, raw, added]

/-- A lowering accounts for every note of a design without cycles, unless something is too much for
it. -/
theorem lower_accounts (H : d.Built) (A : d.Acyclic) (options : LowerOptions) :
    (∃ report d' s, d.lower options = .ok (report, d') ∧ Account d d.hierarchy options
      (d.settlements d.hierarchy options .empty d.pending) s report d') ∨
    ∃ o, d.lower options = .error (.overflow o) ∧ d.Strained :=
  account_of_ofDesign (Hierarchy.ofDesign_of_acyclic H A) options

/-- Two modules, and a note for each outcome. -/
def allOutcomes : Design := (Design.new "Top").edited
  [.newModule "A" .defined, .newWire ⟨1⟩ "w" (.uint (some 1)), .instantiate ⟨0⟩ "a" ⟨1⟩,
    .setNotes [.ofClassAndTarget "circt.test" "Top|Top/a:A>w",
      (Note.ofClassAndTarget "firrtl.passes.wiring.SourceAnnotation" "Top|A>w").insert "pin"
        (.str "p"),
      .ofClass "firrtl.stage.RunFIRRTLTransformAnnotation", .ofClass "unknown"] .empty]

theorem lower_accounts_allOutcomes : allOutcomes.Built ∧ allOutcomes.Acyclic ∧
    ∃ report d' s, allOutcomes.lower {} = .ok (report, d') ∧ Account allOutcomes
      allOutcomes.hierarchy {}
      (allOutcomes.settlements allOutcomes.hierarchy {} .empty allOutcomes.pending) s report d' ∧
      report.statistics.total = 4 ∧ report.statistics.failures = 1 ∧
      (s.design.attachments.attached (.op ⟨0⟩)).map Note.text =
        ["\x7b\"class\":\"circt.test\",\"circt.nonlocal\":\"nla\"\x7d"] := by
  have H : allOutcomes.Built := (Built.new "Top").edited _
  have A : allOutcomes.Acyclic := by
    rw [← acyclic_hierarchy_iff H.coherent,
      ← Hierarchy.cycle?_eq_none_iff (closed_hierarchy H.coherent H.childrenKnown).enclosed]
    decide +kernel
  have counts : (allOutcomes.lower {}).map (fun r =>
      (r.1.statistics.total, r.1.statistics.failures)) = .ok (4, 1) := by decide +kernel
  rcases lower_accounts H A {} with ⟨report, d', s, hlower, account⟩ | ⟨o, hlower, -⟩
  · rw [hlower] at counts
    obtain ⟨total, failures⟩ := Prod.mk.inj (Except.ok.inj counts)
    refine ⟨H, A, report, d', s, hlower, account, total, failures, ?_⟩
    have drained := congrArg (Except.map fun r : LowerState × List Diagnostic =>
      (r.1.design.attachments.attached (.op ⟨0⟩)).map Note.text) account.drained
    exact (Except.ok.inj (drained.symm.trans (by decide +kernel)))
  · rw [hlower] at counts
    cases counts

end Design

end AnnotatedCircuit
