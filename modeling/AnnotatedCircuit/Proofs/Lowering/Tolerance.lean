import AnnotatedCircuit.Proofs.Design.Symbols
import AnnotatedCircuit.Proofs.Lowering.Pins
import AnnotatedCircuit.Proofs.Lowering.Soundness
import AnnotatedCircuit.Proofs.Wiring.Blindness

/-!
# Tolerance loses nothing

Options that tolerate more leave every note the rule that it has, and a rule that they add is for no
ends of pins. So the notes are settled in step, over the same pins: what is accepted stays accepted
with the same verdict (`Design.settlements_upheld`). The two states differ in further notes and in
the names of anchors, at which the wiring does not look, so it takes the same course
(`Design.lower_tolerant`).
-/

namespace AnnotatedCircuit

open Lowering

/-- The second options tolerate what the first ones do, and both fall back to the default class. -/
structure LowerOptions.Below (o o' : LowerOptions) : Prop where
  unhandled : o.ignoreUnhandled = true → o'.ignoreUnhandled = true
  classless : o.ignoreClassless = true → o'.ignoreClassless = true
  fallback : o.fallbackClass = fallbackClass {}
  fallback' : o'.fallbackClass = fallbackClass {}

namespace LowerOptions.Below

variable {o o' : LowerOptions} {n : Note} {r : Rule}

/-! ### Rules -/

/-- A note keeps its class. -/
theorem class? (B : o.Below o') {c : String} (hc : Lowering.class? o n = some c) :
    Lowering.class? o' n = some c := by
  rw [Lowering.class?] at hc ⊢
  rcases Option.or_eq_some_iff.mp hc with hn | ⟨hn, hc⟩
  · rw [hn, Option.some_or]
  · rw [Option.ite_none_right_eq_some, B.fallback, ← B.fallback'] at hc
    rw [hn, Option.none_or, if_pos (B.classless hc.1)]
    exact hc.2

/-- A note keeps its rule. -/
theorem rule? (B : o.Below o') (hr : Lowering.rule? o n = some r) :
    Lowering.rule? o' n = some r := by
  obtain ⟨c, hc, hr⟩ := Option.bind_eq_some_iff.mp hr
  refine Option.bind_eq_some_iff.mpr ⟨c, B.class? hc, ?_⟩
  rcases Option.or_eq_some_iff.mp hr with known | ⟨unknown, hr⟩
  · rw [known, Option.some_or]
  · rw [Option.ite_none_right_eq_some, B.fallback, ← B.fallback'] at hr
    rw [unknown, Option.none_or, if_pos (B.unhandled hr.1)]
    exact hr.2

/-- A rule that a note gets by more tolerance is that of the fallback class, which is for no ends. -/
theorem role?_of_rule? (B : o.Below o') (unruled : Lowering.rule? o n = none)
    (hr : Lowering.rule? o' n = some r) : r.action.role? = none := by
  have fallback : rules.find? o'.fallbackClass = some r → r.action.role? = none := by
    intro h
    rw [B.fallback'] at h
    cases h
    rfl
  obtain ⟨c, hc', hr'⟩ := Option.bind_eq_some_iff.mp hr
  rcases Option.or_eq_some_iff.mp hr' with known | ⟨-, hr'⟩
  · -- The class is known, so that it is not the one that the first options find.
    have other : ∀ c₀, Lowering.class? o n = some c₀ → c₀ ≠ c := by
      rintro _ hc rfl
      rw [Lowering.rule?, hc] at unruled
      cases (Option.or_eq_none_iff.mp unruled).1.symm.trans known
    refine fallback ?_
    rw [Lowering.class?] at hc'
    rcases Option.or_eq_some_iff.mp hc' with hn | ⟨-, hc'⟩
    · exact absurd rfl (other c (by rw [Lowering.class?, hn, Option.some_or]))
    · cases (Option.ite_none_right_eq_some.mp hc').2
      exact known
  · exact fallback (Option.ite_none_right_eq_some.mp hr').2

end LowerOptions.Below

/-! ### Verdicts -/

namespace Lowering

variable {d : Design} {h : Hierarchy} {o : LowerOptions} {s : LowerState} {n : Note} {r : Rule}

/-- Settle a note by a rule. -/
def settleBy (r : Rule) (n : Note) : Lowering Verdict := do
  let t ← r.scope.locate n
  let v ← r.action.judge t n
  ask (·.checkVerdict n v)
  return v

theorem settleBy_asks (d : Design) (h : Hierarchy) (r : Rule) (n : Note) :
    Asks d h (settleBy r n) :=
  .bind (.scope r.scope n) fun t => .bind (.judge r.action t n) fun v =>
    .bind (.checkVerdict n v) fun _ => .pure v

/-- A note with a rule is settled by it. -/
theorem settleNote_of_rule (A : Aligned d h s) (hr : rule? o n = some r) :
    ∃ s', Aligned d h s' ∧ s'.pins = s.pins ∧ settleNote o n s = settleBy r n s' := by
  obtain ⟨c, hc, hr⟩ := Option.bind_eq_some_iff.mp hr
  obtain ⟨s', found⟩ := ruleOf_answers (s := s) hr
  obtain ⟨names, unhandled, N, rfl⟩ := (Asks.ruleOf o c).state_of_ok A found
  refine ⟨{ s with names, unhandled }, ⟨A.design, A.hierarchy, N⟩, rfl, ?_⟩
  simp only [settleNote, judgeNote, settleBy, bind_assoc]
  exact (EStateM.bind_of_ok (classOf_apply hc)).trans (EStateM.bind_of_ok found)

end Lowering

/-- A note that was accepted is accepted with the same verdict, and the pins stay the same. -/
structure Settlement.Upheld (c c' : Settlement) : Prop where
  note : c'.note = c.note
  result : ∀ v, c.result = .ok v → c'.result = .ok v
  pins : ∀ pins, c'.record pins = c.record pins

namespace Design

variable {d : Design} {h : Hierarchy} {o o' : LowerOptions} {n : Note} {r : Rule}

/-- The verdict on a note depends on the options through its rule alone. -/
theorem verdict_eq_of_rule (hr : rule? o n = some r) (hr' : rule? o' n = some r) (pins : Pins) :
    d.verdict h o pins n = d.verdict h o' pins n := by
  obtain ⟨answer, -, asks⟩ := settleBy_asks d h r n
  have settled : ∀ o, rule? o n = some r → d.verdict h o pins n = answer pins := by
    intro o hr
    have A : Aligned d h { LowerState.start d h with pins } := ⟨⟨_, _, _, _, rfl⟩, rfl, .empty d⟩
    obtain ⟨s, A', same, hs⟩ := settleNote_of_rule A hr
    obtain ⟨names, unhandled, -, hx⟩ := asks A'
    rw [same] at hx
    exact EStateM.answer_of_leaving (hs.trans hx)
  rw [settled o hr, settled o' hr']

/-- A note is settled the same way where more is tolerated, or it was refused for want of a rule and
then becomes no end of a pin. -/
theorem upheld_verdict (B : o.Below o') (pins : Pins) (n : Note) :
    Settlement.Upheld ⟨n, d.verdict h o pins n⟩ ⟨n, d.verdict h o' pins n⟩ := by
  cases hr : rule? o n with
  | some r =>
    rw [verdict_eq_of_rule hr (B.rule? hr)]
    exact ⟨rfl, fun _ => id, fun _ => rfl⟩
  | none =>
    have refused : ∀ v, d.verdict h o pins n ≠ .ok v := by
      intro v hv
      obtain ⟨r, -, hr', -⟩ := fits_of_verdict hv
      cases hr.symm.trans hr'
    have endless : ∀ v, d.verdict h o' pins n = .ok v → v.end? = none := by
      intro v hv
      refine Option.eq_none_iff_forall_ne_some.mpr fun e he => ?_
      obtain ⟨r, -, hr', role, -⟩ := pinEnd?_eq_some_iff.mp (pinEnd?_of_verdict hv he)
      cases (B.role?_of_rule? hr hr').symm.trans role
    refine ⟨rfl, fun v hv => absurd hv (refused v), fun ps => ?_⟩
    have before : Settlement.record ps ⟨n, d.verdict h o pins n⟩ = ps := by
      cases hv : d.verdict h o pins n with
      | ok v => exact absurd hv (refused v)
      | error e => rfl
    rw [before]
    cases hv : d.verdict h o' pins n with
    | error e => rfl
    | ok v =>
      have := endless v hv
      cases v with
      | attach | drop => rfl
      | source | sink => cases this

/-- Notes are settled in step where more is tolerated, over the same pins. -/
theorem settlements_upheld (B : o.Below o') (pins : Pins) (notes : List Note) :
    List.Forall₂ Settlement.Upheld (d.settlements h o pins notes)
      (d.settlements h o' pins notes) := by
  induction notes generalizing pins with
  | nil => exact .nil
  | cons n notes ih =>
    have U := upheld_verdict (d := d) (h := h) B pins n
    have rest := ih (Settlement.record pins ⟨n, d.verdict h o pins n⟩)
    rw [settlements, settlements]
    refine .cons U ?_
    rwa [U.pins]

end Design

namespace Lowering

variable {R : Note → Note → Prop} {d d₁ d₁' : Design} {h : Hierarchy} {o o' : LowerOptions}
  {s s' : LowerState} {cs cs' : List Settlement} {n n' : Note} {t t' : Target}

theorem record_upheld (U : List.Forall₂ Settlement.Upheld cs cs') (pins : Pins) :
    cs'.foldl Settlement.record pins = cs.foldl Settlement.record pins := by
  induction U generalizing pins with
  | nil => rfl
  | cons first _ ih => rw [List.foldl_cons, List.foldl_cons, first.pins, ih]

/-- What is attached to an entity stays, in its order, up to a relation of the forms that are attached
of one note. -/
theorem forms_upheld (U : List.Forall₂ Settlement.Upheld cs cs')
    {anchor anchor' : Note → Target → Option String}
    (related : ∀ c ∈ cs, ∀ t, c.result = .ok (.attach t) →
      R (c.note.attachedForm t (anchor c.note t)) (c.note.attachedForm t (anchor' c.note t)))
    (e : Entity) : List.SublistForall₂ R (cs.filterMap (Settlement.formOn? anchor e))
      (cs'.filterMap (Settlement.formOn? anchor' e)) := by
  induction U with
  | nil => exact .nil
  | @cons c c' cs cs' first _ ih =>
    obtain ⟨here, later⟩ := List.forall_mem_cons.mp related
    have rest := ih later
    cases hform : Settlement.formOn? anchor e c with
    | some a =>
      obtain ⟨t, accepted, entity, rfl⟩ := Settlement.formOn?_eq_some_iff.mp hform
      have hform' := Settlement.formOn?_eq_some_iff.mpr
        ⟨t, first.result _ accepted, entity, congrArg (fun n => n.attachedForm t (anchor' n t))
          first.note⟩
      rw [List.filterMap_cons_some hform, List.filterMap_cons_some hform']
      exact .cons (here t accepted) rest
    | none =>
      rw [List.filterMap_cons_none hform]
      cases hform' : Settlement.formOn? anchor' e c' with
      | none =>
        rw [List.filterMap_cons_none hform']
        exact rest
      | some a =>
        rw [List.filterMap_cons_some hform']
        exact .cons_right rest

/-! ### Names of anchors -/

/-- What is attached in a first lowering finds the name that it needs in a second one, too. -/
theorem anchored_upheld {s₀ : LowerState} {c : Settlement}
    (U : List.Forall₂ Settlement.Upheld cs cs') (A : Accounted d h cs' s₀ s') (hc : c ∈ cs)
    (accepted : c.result = .ok (.attach t)) (needs : c.note.needsAnchor t = true) :
    (s'.anchorOf? c.note t).isSome := by
  obtain ⟨i, hi, rfl⟩ := List.mem_iff_getElem.mp hc
  have hi' : i < cs'.length := U.length_eq ▸ hi
  have upheld : Settlement.Upheld cs[i] cs'[i] := U.get hi hi'
  rw [← upheld.note] at needs ⊢
  exact A.anchored cs'[i] (List.getElem_mem hi') t (upheld.result _ accepted) needs

/-- Two notes refer to one name exactly if the ways to their targets are the same. -/
theorem anchorOf?_eq_iff (A : Aligned d h s) (P : Pooled d s) (H : s.design.Built)
    (needs : n.needsAnchor t = true) (needs' : n'.needsAnchor t' = true)
    (named : (s.anchorOf? n t).isSome) (named' : (s.anchorOf? n' t').isSome) :
    s.anchorOf? n t = s.anchorOf? n' t' ↔
      t.route = t'.route ∧ d.entityModule t.entity = d.entityModule t'.entity := by
  obtain ⟨leaf, a, x, hleaf, ha, hx, -, hname⟩ := pooled_of_anchorOf? A P needs named
  obtain ⟨leaf', a', x', hleaf', ha', hx', -, hname'⟩ := pooled_of_anchorOf? A P needs' named'
  rw [hname, hname', hleaf, hleaf']
  constructor
  · intro same
    have place : a.index = a'.index := by
      refine (List.getElem?_inj ?_ H.distinct.anchors).mp ?_
      · rw [Design.anchorNames, List.length_map]
        exact (List.getElem?_eq_some_iff.mp hx).1
      · rw [Design.anchorNames, List.getElem?_map, List.getElem?_map]
        change (s.design.anchor? a).map Anchor.name = (s.design.anchor? a').map Anchor.name
        rw [hx, hx']
        exact same
    obtain ⟨_⟩ := a
    obtain ⟨_⟩ := a'
    cases place
    obtain ⟨route, leaf⟩ := Prod.mk.inj (P.2 ha ha')
    exact ⟨route, congrArg Except.ok leaf⟩
  · rintro ⟨route, same⟩
    cases same
    rw [route, ha'] at ha
    cases ha
    rw [hx] at hx'
    cases hx'
    rfl

/-! ### The wiring of both -/

/-- Designs that match before the wiring match after it, and the wiring counts the same. -/
theorem finish_matches {raw raw' : Nat} {ds ds' : List Diagnostic} {report report' : Report}
    (M : s.design.Matches R s'.design) (table : s'.table = s.table)
    (requests : s'.requests = s.requests) (pins : s'.pins = s.pins)
    (hf : finish raw s ds = .ok (report, d₁)) (hf' : finish raw' s' ds' = .ok (report', d₁')) :
    d₁.Matches R d₁' ∧ report'.statistics.requests = report.statistics.requests ∧
      report'.statistics.ports = report.statistics.ports ∧
      report'.statistics.instances = report.statistics.instances := by
  obtain ⟨⟨p, errors⟩, hplan, hdone⟩ := Checked.bind_eq_ok_iff.mp hf
  obtain ⟨⟨p', errors'⟩, hplan', hdone'⟩ := Checked.bind_eq_ok_iff.mp hf'
  rw [Wiring.plan_matches M, table, requests, pins] at hplan'
  cases hplan.symm.trans hplan'
  obtain ⟨d₂, same, M'⟩ := Wiring.realize_matches M p.table p.plan
  cases hdone
  cases hdone'
  rw [same, requests, pins]
  exact ⟨M', rfl, rfl, rfl⟩

/-- A note of the first lowering and what stands for it in the second one. -/
inductive Counterpart (d : Design) (cs : List Settlement) (s s' : LowerState) :
    Note → Note → Prop where
  /-- The note was attached before. -/
  | old {e : Entity} {a : Note} (attached : a ∈ d.attachments.attached e) :
    Counterpart d cs s s' a a
  /-- Both are forms of one note for one target, with the names that stand for the way there. -/
  | form {c : Settlement} {t : Target} (settled : c ∈ cs) (accepted : c.result = .ok (.attach t)) :
    Counterpart d cs s s' (c.note.attachedForm t (s.anchorOf? c.note t))
      (c.note.attachedForm t (s'.anchorOf? c.note t))

/-- A list of notes that stays as it was before. -/
theorem Counterpart.unchanged (d : Design) (cs : List Settlement) (s s' : LowerState) (e : Entity) :
    List.SublistForall₂ (Counterpart d cs s s') (d.attachments.attached e)
      (d.attachments.attached e) :=
  List.sublistForall₂_iff.mpr
    ⟨_, List.forall₂_same.mpr fun _ ha => .old ha, List.Sublist.refl _⟩

/-- What a lowering did, a second one did too. The notes were settled as `cs` and `cs'` say, which led
to the states `s` and `s'`, and then the wiring began. -/
structure Upholds (d : Design) (cs cs' : List Settlement) (s s' : LowerState)
    (report report' : Report) (d₁ d₁' : Design) : Prop where
  /-- What is not reported of the first lowering is not reported of the second one, and has the same
  outcome. -/
  settled : List.Forall₂ (fun c c' => c'.note = c.note ∧
    (c.refusal? = none → c'.refusal? = none ∧ c'.result = c.result)) cs cs'
  /-- After the wiring, the notes of an entity are a subsequence, up to the names of anchors. -/
  attached : ∀ e, List.SublistForall₂ (Counterpart d cs s s') (d₁.attachments.attached e)
    (d₁'.attachments.attached e)
  /-- The names are exchanged consistently: two notes refer to one anchor in both or in none. -/
  shared : ∀ c ∈ cs, ∀ c' ∈ cs, ∀ t t', c.result = .ok (.attach t) → c'.result = .ok (.attach t') →
    c.note.needsAnchor t = true → c'.note.needsAnchor t' = true →
    (s.anchorOf? c.note t = s.anchorOf? c'.note t' ↔
      s'.anchorOf? c.note t = s'.anchorOf? c'.note t')
  anchors : d₁.anchors = s.design.anchors ∧ d₁'.anchors = s'.design.anchors
  requests : s'.requests ++ s'.pins.entries.flatMap requestsOfPin =
    s.requests ++ s.pins.entries.flatMap requestsOfPin
  counted : report'.statistics.requests = report.statistics.requests ∧
    report'.statistics.ports = report.statistics.ports ∧
    report'.statistics.instances = report.statistics.instances
  design : ∃ attachments anchors symbols, d₁' = { d₁ with attachments, anchors, symbols }

end Lowering

namespace Design

variable {d d₁ d₁' : Design} {h : Hierarchy} {o o' : LowerOptions} {s s' : LowerState}
  {report report' : Report}

/-- The state of an account is that of the settlements. -/
theorem accounted_of_account
    (C : Account d h o (d.settlements h o .empty d.pending) s report d₁) :
    Accounted d h (d.settlements h o .empty d.pending) (.start { d with pending := [] } h) s := by
  rcases drain_cases o (Aligned.start d h []) (Pooled.start d { d with pending := [] } h) rfl
    (Nat.le_refl d.pending.length) with ⟨s₁, hdrain, R⟩ | ⟨c, hdrain, -⟩
  · cases C.drained.symm.trans hdrain
    exact R
  · cases C.drained.symm.trans hdrain

/-- The settlements of both lowerings, outcome by outcome. -/
theorem settled_upheld (B : o.Below o')
    (C : Account d h o (d.settlements h o .empty d.pending) s report d₁) :
    List.Forall₂ (fun c c' => c'.note = c.note ∧
        (c.refusal? = none → c'.refusal? = none ∧ c'.result = c.result))
      (d.settlements h o .empty d.pending) (d.settlements h o' .empty d.pending) := by
  have grounded := C.grounded
  have U := settlements_upheld (d := d) (h := h) B .empty d.pending
  generalize d.settlements h o .empty d.pending = cs, d.settlements h o' .empty d.pending = cs'
    at grounded U
  induction U with
  | nil => exact .nil
  | @cons c c' _ _ first _ ih =>
    obtain ⟨here, later⟩ := List.forall_mem_cons.mp grounded
    refine .cons ⟨first.note, fun unreported => ?_⟩ (ih later)
    rw [Settlement.refusal?] at unreported
    rw [Settlement.Grounded] at here
    cases hc : c.result with
    | ok v =>
      have hc' := first.result v hc
      rw [Settlement.refusal?, hc']
      exact ⟨rfl, rfl⟩
    | error e =>
      rw [hc] at unreported here
      cases e with
      | failure e => cases unreported
      | overflow e => exact here.elim

/-- Before the wiring, the designs match. -/
theorem matches_of_accounts (B : o.Below o')
    (C : Account d h o (d.settlements h o .empty d.pending) s report d₁)
    (C' : Account d h o' (d.settlements h o' .empty d.pending) s' report' d₁') :
    s.design.Matches (Counterpart d (d.settlements h o .empty d.pending) s s') s'.design := by
  obtain ⟨attachments, anchors, symbols, hd⟩ := C.design
  obtain ⟨attachments', anchors', symbols', hd'⟩ := C'.design
  refine ⟨attachments', anchors', symbols', by rw [hd', hd], fun e => ?_⟩
  have same : attachments' = s'.design.attachments := by rw [hd']
  rw [same, C.attached, C'.attached]
  apply Attachments.Within.append
  · exact Counterpart.unchanged ..
  · exact forms_upheld (settlements_upheld B .empty d.pending) (fun c hc t ht => .form hc ht) e

theorem upholds_of_accounts (H : d.Built) (B : o.Below o') (some : d.pending ≠ [])
    (C : Account d h o (d.settlements h o .empty d.pending) s report d₁)
    (C' : Account d h o' (d.settlements h o' .empty d.pending) s' report' d₁') :
    Upholds d (d.settlements h o .empty d.pending) (d.settlements h o' .empty d.pending) s s'
      report report' d₁ d₁' := by
  have A := accounted_of_account C
  have A' := accounted_of_account C'
  have built : Built { d with pending := [] } := H.call (.setNotes [] d.attachments)
  have U := settlements_upheld (d := d) (h := h) B .empty d.pending
  have pins : s'.pins = s.pins := C'.pins.trans ((record_upheld U _).trans C.pins.symm)
  have table : s'.table = s.table := A'.idle.1.trans A.idle.1.symm
  have requests : s'.requests = s.requests := A'.idle.2.trans A.idle.2.symm
  obtain ⟨⟨attachments, anchors, symbols, hd, within⟩, counted⟩ :=
    finish_matches (matches_of_accounts B C C') table requests pins (C.wired some) (C'.wired some)
  refine ⟨settled_upheld B C, fun e => ?_, fun c hc c₂ hc₂ t t₂ ht ht₂ needs needs₂ => ?_,
    ⟨(finish_reports (C.wired some)).1.anchors, (finish_reports (C'.wired some)).1.anchors⟩,
    by rw [requests, pins], counted, attachments, anchors, symbols, hd⟩
  · rw [hd]
    exact within e
  · rw [anchorOf?_eq_iff A.aligned A.pooled (A.built built) needs needs₂
        (A.anchored c hc t ht needs) (A.anchored c₂ hc₂ t₂ ht₂ needs₂),
      anchorOf?_eq_iff A'.aligned A'.pooled (A'.built built) needs needs₂
        (anchored_upheld U A' hc ht needs) (anchored_upheld U A' hc₂ ht₂ needs₂)]

/-- In an idle lowering nothing is done, whatever is tolerated. -/
theorem upholds_of_idle (idle : d.pending = []) :
    Upholds d (d.settlements h o .empty d.pending) (d.settlements h o' .empty d.pending)
      (.start { d with pending := [] } h) (.start { d with pending := [] } h) ⟨{}, []⟩ ⟨{}, []⟩
      { d with pending := [] } { d with pending := [] } := by
  rw [idle]
  exact ⟨.nil, fun e => Counterpart.unchanged .., nofun, ⟨rfl, rfl⟩, rfl, ⟨rfl, rfl, rfl⟩, _, _, _,
    rfl⟩

/-- Tolerance is monotone. Where a second lowering of a design without cycles tolerates all that a
first one does, it reports no note that the first one does not report, and does the same with each
such note. The notes of every entity are those of the first lowering with further ones in between, up
to the names of anchors, and the same connections are asked for and made; unless something is too
much for one of the two. -/
theorem lower_tolerant (H : d.Built) (A : d.Acyclic) (B : o.Below o') :
    (∃ report d₁ s report' d₁' s', d.lower o = .ok (report, d₁) ∧
      d.lower o' = .ok (report', d₁') ∧
      Account d d.hierarchy o (d.settlements d.hierarchy o .empty d.pending) s report d₁ ∧
      Account d d.hierarchy o' (d.settlements d.hierarchy o' .empty d.pending) s' report' d₁' ∧
      Upholds d (d.settlements d.hierarchy o .empty d.pending)
        (d.settlements d.hierarchy o' .empty d.pending) s s' report report' d₁ d₁') ∨
    ∃ c, (d.lower o = .error (.overflow c) ∨ d.lower o' = .error (.overflow c)) ∧ d.Strained := by
  have hh := Hierarchy.ofDesign_of_acyclic H A
  rcases account_of_ofDesign hh o with ⟨report, d₁, s, hl, C⟩ | ⟨c, hl, strained⟩
  · rcases account_of_ofDesign hh o' with ⟨report', d₁', s', hl', C'⟩ | ⟨c, hl', strained⟩
    · refine .inl ⟨report, d₁, s, report', d₁', s', hl, hl', C, C', ?_⟩
      by_cases idle : d.pending = []
      · have nothing : ∀ o, d.lower o = .ok (⟨{}, []⟩, { d with pending := [] }) := fun o => by
          rw [lower, lowerWithin, idle]
          rfl
        have hs := C.drained
        have hs' := C'.drained
        cases hl.symm.trans (nothing o)
        cases hl'.symm.trans (nothing o')
        rw [idle] at hs hs'
        cases hs
        cases hs'
        exact upholds_of_idle idle
      · exact upholds_of_accounts H B idle C C'
    · exact .inr ⟨c, .inr hl', strained⟩
  · exact .inr ⟨c, .inl hl, strained⟩

/-- A note without a class and one of an unknown class before others, of which one refers to an
anchor, one is on an instance that will be replaced, and two are the ends of a pin. -/
def driftingNotes : Design := (Design.new "Top").edited
  [.newModule "A" .defined, .newModule "B" .defined, .newWire ⟨1⟩ "w" .clock,
    .newWire ⟨2⟩ "x" .clock, .newWire ⟨0⟩ "y" .clock, .instantiate ⟨0⟩ "a" ⟨1⟩,
    .instantiate ⟨0⟩ "b" ⟨1⟩, .instantiate ⟨0⟩ "c" ⟨2⟩,
    .setNotes [Note.empty.insert Note.targetField (.str "Top|Top/a:A>w"),
      .ofClassAndTarget "circt.test" "Top|Top/b:A>w", .ofClassAndTarget "unknown" "Top|Top>c",
      .ofClassAndTarget "circt.test" "Top|Top>c",
      endNote "firrtl.passes.wiring.SourceAnnotation" "Top|B>x" "p",
      endNote Handlers.pinSinkClass "Top|Top>y" "p"] .empty]

/-- What a run shows: its failures and new ports, and the notes on the wire in `A` and on the
replacement of `c`. -/
def shown (r : Report × Design) : Nat × Nat × List String × List String :=
  (r.1.statistics.failures, r.1.statistics.ports,
    (r.2.attachments.attached (.op ⟨0⟩)).map Note.text,
    (r.2.attachments.attached (.op ⟨7⟩)).map Note.text)

theorem lower_tolerant_driftingNotes :
    driftingNotes.Built ∧ driftingNotes.Acyclic ∧
    ∃ o' : LowerOptions, LowerOptions.Below {} o' ∧
    ∃ report d₁ s report' d₁' s', driftingNotes.lower {} = .ok (report, d₁) ∧
      driftingNotes.lower o' = .ok (report', d₁') ∧
      Upholds driftingNotes
        (driftingNotes.settlements driftingNotes.hierarchy {} .empty driftingNotes.pending)
        (driftingNotes.settlements driftingNotes.hierarchy o' .empty driftingNotes.pending) s s'
        report report' d₁ d₁' ∧
      shown (report, d₁) = (2, 1,
        ["\x7b\"class\":\"circt.test\",\"circt.nonlocal\":\"nla\"\x7d"],
        ["\x7b\"class\":\"circt.test\"\x7d"]) ∧
      shown (report', d₁') = (0, 1,
        ["\x7b\"circt.nonlocal\":\"nla\"\x7d",
          "\x7b\"class\":\"circt.test\",\"circt.nonlocal\":\"nla_0\"\x7d"],
        ["\x7b\"class\":\"unknown\"\x7d", "\x7b\"class\":\"circt.test\"\x7d"]) := by
  have H : driftingNotes.Built := (Built.new "Top").edited _
  have A : driftingNotes.Acyclic :=
    (acyclic_iff H.coherent H.childrenKnown).mpr (by decide +kernel)
  have B : LowerOptions.Below {} { ignoreUnhandled := true, ignoreClassless := true } :=
    ⟨nofun, nofun, rfl, rfl⟩
  have strict : (driftingNotes.lower {}).map shown = .ok (2, 1,
      ["\x7b\"class\":\"circt.test\",\"circt.nonlocal\":\"nla\"\x7d"],
      ["\x7b\"class\":\"circt.test\"\x7d"]) := by
    decide +kernel
  have tolerant : (driftingNotes.lower { ignoreUnhandled := true, ignoreClassless := true }).map
      shown = .ok (0, 1,
        ["\x7b\"circt.nonlocal\":\"nla\"\x7d",
          "\x7b\"class\":\"circt.test\",\"circt.nonlocal\":\"nla_0\"\x7d"],
        ["\x7b\"class\":\"unknown\"\x7d", "\x7b\"class\":\"circt.test\"\x7d"]) := by
    decide +kernel
  rcases lower_tolerant H A B with
    ⟨report, d₁, s, report', d₁', s', hl, hl', -, -, upholds⟩ | ⟨c, hl | hl, -⟩
  · rw [hl] at strict
    rw [hl'] at tolerant
    exact ⟨H, A, _, B, report, d₁, s, report', d₁', s', hl, hl', upholds, Except.ok.inj strict,
      Except.ok.inj tolerant⟩
  · rw [hl] at strict
    cases strict
  · rw [hl] at tolerant
    cases tolerant

end Design

end AnnotatedCircuit
